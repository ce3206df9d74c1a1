import L4.TableThreadSteps

namespace L4.TableThreads
set_option autoImplicit true
open ReadWrite (updatePerfDataForAdd perfUpdatesForRemoved)
open Cache (Sound touched_setBucket)
variable {setting : Setting} {config : HashTableConfig}

/-- The records that a thread has unlinked and not yet registered for release. -/
def Thread.held (th : Thread setting) : List RecordBuffer :=
  th.tasks.filterMap fun
    | .update _ => none
    | .release record => some record

/-- The record that an `Add` has created and not yet published. -/
def Thread.adding (th : Thread setting) : List RecordBuffer :=
  match th.phase with
  | .adding recordToAdd => [recordToAdd]
  | _ => []

def Label.published : Label setting → List RecordBuffer
  | .publish _ recordToAdd _ => [recordToAdd]
  | _ => []

def Label.registered : Label setting → List RecordBuffer
  | .registerAction record => [record]
  | _ => []

abbrev addresses (records : List RecordBuffer) : List Nat := records.map (·.address)

theorem held_updates (us : List PerfUpdate) (tasks : List Task) (phase : Phase setting) :
    (⟨us.map .update ++ tasks, phase⟩ : Thread setting).held =
      (⟨tasks, phase⟩ : Thread setting).held := by
  induction us with
  | nil => rfl
  | cons u us ih => exact ih

theorem held_releases (records : List RecordBuffer) (phase : Phase setting) :
    (⟨records.map .release, phase⟩ : Thread setting).held = records := by
  induction records with
  | nil => rfl
  | cons record records ih => exact congrArg (record :: ·) ih

theorem addresses_stored {t t' : SharedHashTable setting}
    (h : t.Stored s data newTag t') :
    (addresses t'.records ++ addresses (t.load s).toList).Perm
      (addresses t.records ++ addresses data.toList) := by
  obtain ⟨before, after, hrecords, hrecords'⟩ := h.records
  rw [List.perm_iff_count]
  intro a
  simp only [addresses, hrecords, hrecords', List.map_append, List.count_append]
  omega

theorem addresses_touched {t : SharedHashTable setting} (hload : t.load (i, p) = some record)
    (haddress : record'.address = record.address) :
    (addresses (t.setBucket i (t.buckets[i].storeData p (some record'))).records).Perm
      (addresses t.records) := by
  have hstored := addresses_stored (touched_setBucket hload record').stored
  have hsame : addresses (some record').toList = addresses (some record).toList :=
    congrArg ([·]) haddress
  rwa [hload, hsame, List.perm_append_right_iff] at hstored

theorem Sweep.address_of_visit {sweep : Sweep}
    (h : sweep.visit rs options record = some record') : record'.address = record.address := by
  rcases Sweep.visit_cases h with rfl | rfl <;> rfl

/-- The allocator has handed out the address. -/
def issued (t : SharedHashTable setting) (a : Nat) : Nat := if a < t.allocator.next then 1 else 0

theorem issued_setAllocator {t : SharedHashTable setting} {allocator : Allocator}
    (hnext : allocator.next = t.allocator.next + 1) :
    issued (t.setAllocator allocator) a = issued t a + if t.allocator.next = a then 1 else 0 := by
  have hissued : issued (t.setAllocator allocator) a = if a < allocator.next then 1 else 0 := rfl
  rw [hissued, hnext, issued]
  split_ifs <;> omega

/-- Where a thread may hold a record: after the critical section of `Add`, or in another one. -/
def Thread.HoldsInside (th : Thread setting) : Prop :=
  th.phase.lock = none → th.held ≠ [] → ∃ s isNewEntryAdded, th.phase = .counting s isNewEntryAdded

section Acts
variable [Platform] {others : List (Thread config.setting)} {t t' : Table config}
  {th th' : Thread config.setting} {label : Label config.setting}

/-- A step passes records on: from the table to the thread and from the thread to the action
manager. Only a publication brings one in. -/
theorem Act.passesOn (h : Act config others t th label t' th')
    (hs : Sound config.recordSerializer (fun _ => True) t.hashTable) :
    (addresses t'.hashTable.records ++ addresses th'.held ++ addresses label.registered).Perm
      (addresses t.hashTable.records ++ addresses th.held ++ addresses label.published) := by
  cases h with
  | release record tasks =>
    change ((_ ++ addresses _) ++ [record.address]).Perm
      ((_ ++ record.address :: addresses _) ++ [])
    rw [List.append_nil, List.append_assoc]
    exact (List.perm_append_singleton _ _).append_left _
  | visitStays hcache hload hvisit =>
    have haddress := Sweep.address_of_visit hvisit
    exact ((addresses_touched hload haddress).append_right []).append_right []
  | visitRemoves hcache hload hvisit =>
    have hstored := addresses_stored (ReadWrite.unlinked_of_load hload).stored
    rw [hload] at hstored
    rw [held_updates]
    exact hstored.append_right []
  | createRecordBuffer curEpochTime hcreate =>
    obtain ⟨allocator, rfl, -⟩ := createRecordBuffer_allocates hcreate
    exact .refl _
  | createRecordBufferThrows curEpochTime hcreate =>
    obtain ⟨allocator, rfl, -⟩ := createRecordBuffer_allocates hcreate
    exact .refl _
  | add hinfo hlock hslot hpublish =>
    have hp := published_of_scan hs.consistent hinfo hslot hpublish
    have hstored := addresses_stored hp.stored
    rw [← hp.replaced] at hstored
    rw [held_updates, held_releases]
    exact (hstored.append_right []).trans (.of_eq (by simp [Label.published, Thread.held]))
  | remove hinfo hlock hfind =>
    have hload : t.hashTable.load (_, _) = some _ := (Bucket.find?_some hfind).1
    have hstored := addresses_stored (ReadWrite.unlinked_of_load hload).stored
    rw [hload] at hstored
    rw [held_updates]
    exact hstored.append_right []
  | touch s r =>
    change ((addresses (TableThreads.touch t.hashTable config.recordSerializer s
      r.address).records ++ []) ++ []).Perm ((_ ++ []) ++ [])
    rcases touch_cases t.hashTable config.recordSerializer s r.address with
      heq | ⟨record, hload, heq⟩
    · rw [heq]
    · rw [heq]
      refine ((addresses_touched hload ?_).append_right []).append_right []
      rfl
  | getMisses =>
    split_ifs <;> exact .refl _
  | _ => exact .refl _

theorem Act.allocates (h : Act config others t th label t' th') (a : Nat) :
    (addresses th'.adding).count a + (addresses label.published).count a + issued t.hashTable a ≤
      (addresses th.adding).count a + issued t'.hashTable a := by
  have hkeeps : 0 + 0 + issued t.hashTable a ≤
      (addresses th.adding).count a + issued t.hashTable a := by
    omega
  cases h with
  | update u tasks => exact Nat.le_refl _
  | release record tasks => exact Nat.le_refl _
  | callAdd record =>
    simp only [startAdd]
    split
    · exact hkeeps
    · split_ifs
      · exact hkeeps
      · exact hkeeps
  | endSweep record sweep =>
    cases sweep with
    | basedOnTime curEpochTime => exact hkeeps
    | clock curEpochTime numIterationsRemaining numBytesToFree => exact hkeeps
  | calculate hcache curEpochTime =>
    simp only [afterCalculate]
    split_ifs
    · exact hkeeps
    · exact hkeeps
    · exact hkeeps
  | @createRecordBuffer _ _ recordToAdd _ curEpochTime hcreate =>
    obtain ⟨allocator, rfl, hnext, haddress⟩ := createRecordBuffer_allocates hcreate
    change [recordToAdd.address].count a + 0 + issued t.hashTable a ≤
      0 + issued (t.hashTable.setAllocator allocator) a
    rw [haddress _ rfl, List.count_singleton, issued_setAllocator hnext]
    simp only [beq_iff_eq]
    omega
  | createRecordBufferThrows curEpochTime hcreate =>
    obtain ⟨allocator, rfl, hnext, -⟩ := createRecordBuffer_allocates hcreate
    change 0 + 0 + issued t.hashTable a ≤ 0 + issued (t.hashTable.setAllocator allocator) a
    rw [issued_setAllocator hnext]
    omega
  | add hinfo hlock hslot hpublish =>
    obtain rfl := congrArg (·.2.2) hpublish
    exact Nat.le_of_eq (congrArg (· + _) (Nat.zero_add _))
  | touch s r =>
    change 0 + 0 + issued t.hashTable a ≤ 0 + issued (TableThreads.touch t.hashTable
      config.recordSerializer s r.address) a
    rcases touch_cases t.hashTable config.recordSerializer s r.address with heq | ⟨_, -, heq⟩
    · rw [heq]
    · rw [heq]
      exact Nat.le_refl _
  | _ => exact hkeeps

theorem Act.holdsInside (h : Act config others t th label t' th') (hth : th.HoldsInside) :
    th'.HoldsInside := by
  have hnil (phase : Phase config.setting) : (⟨[], phase⟩ : Thread _).HoldsInside :=
    fun _ hne => absurd rfl hne
  cases h with
  | update u tasks => exact hth
  | @release phase record tasks => exact fun hlock _ => hth hlock (List.cons_ne_nil _ _)
  | visitRemoves hcache hload hvisit =>
    intro hlock
    cases hlock
  | add hinfo hlock hslot hpublish => exact fun _ _ => ⟨_, _, rfl⟩
  | remove hinfo hlock hfind =>
    intro hlock
    cases hlock
  | touch s r => exact fun _ hne => absurd rfl hne
  | getMisses =>
    intro _ hne
    split_ifs at hne
    · exact absurd rfl hne
    · exact absurd rfl hne
  | _ => exact hnil _

end Acts

/-- The addresses of the records that the table stores and that its threads hold. -/
def linked (p : System config) : List Nat := addresses p.shared.hashTable.records

def held (p : System config) : List Nat := p.threads.flatMap fun th => addresses th.held

section Steps
variable [Platform] {p p' : System config} {label : Label config.setting}

/-- The records that have been published or wait for it have addresses of their own. -/
structure Owned (published : List Nat) (p : System config) : Prop where
  sound : Sound config.recordSerializer (fun _ => True) p.shared.hashTable
  fresh : ∀ a, (published ++ p.threads.flatMap fun th => addresses th.adding).count a ≤
    issued p.shared.hashTable a
  holdsInside : ∀ th ∈ p.threads, th.HoldsInside

theorem Owned.step (h : Owned published p) (hstep : Step config p label p') :
    Owned (published ++ addresses label.published) p' := by
  refine ⟨?_, fun a => ?_, ?_⟩
  · cases hstep with
    | intro before after hact =>
      exact hact.sound (Cache.keeps_of_updateAccessStatus _) h.sound (carries_true _)
  · have hfresh := h.fresh a
    cases hstep with
    | intro before after hact =>
      have hallocates := hact.allocates a
      simp only [List.flatMap_append, List.flatMap_cons, List.count_append] at hfresh ⊢
      omega
  · exact hstep.forall (I := fun _ th => th.HoldsInside)
      (fun _ _ _ _ hact hth => hact.holdsInside hth) (fun _ _ _ _ _ _ _ _ hx => hx) h.holdsInside

theorem Owned.passesOn (h : Owned published p) (hstep : Step config p label p') :
    (linked p' ++ held p' ++ addresses label.registered).Perm
      (linked p ++ held p ++ addresses label.published) :=
  ThreadPool.Step.perm (g := fun t => addresses t.hashTable.records)
    (f := fun th => addresses th.held) hstep fun _ _ _ _ _ hact => hact.passesOn h.sound

theorem Owned.nodup (h : Owned published p) : published.Nodup := by
  refine List.nodup_iff_count_le_one.mpr fun a => ?_
  have hfresh := h.fresh a
  rw [List.count_append, issued] at hfresh
  split_ifs at hfresh <;> omega

theorem linked_initial (config : HashTableConfig) (allocator : Allocator) (numThreads : Nat) :
    linked (initial config allocator numThreads) = [] := by
  refine List.map_eq_nil_iff.mpr (List.eq_nil_iff_forall_not_mem.mpr fun record hrecord => ?_)
  obtain ⟨s, hload⟩ := SharedHashTable.mem_records.mp hrecord
  have hnone : (SharedHashTable.create config.setting allocator).load s = none :=
    congrFun (SharedHashTable.load_create _ _) s
  rw [initial, hnone] at hload
  cases hload

theorem initial_owned (config : HashTableConfig) (allocator : Allocator) (numThreads : Nat) :
    Owned [] (initial config allocator numThreads) := by
  have hquiescent := quiescent_initial config allocator numThreads
  refine ⟨Cache.sound_create _ _ allocator, fun a => ?_, fun th hth => ?_⟩
  · rw [hquiescent.flatMap_eq_nil rfl]
    exact Nat.zero_le _
  · rw [hquiescent th hth]
    exact fun _ hne => absurd rfl hne

end Steps

end L4.TableThreads
