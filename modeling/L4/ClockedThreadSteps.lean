import L4.ClockedThreads

namespace L4.ClockedThreads
set_option autoImplicit true
open TableThreads (Phase Sweep KeptByAccess touch_cases published_of_scan)
open Cache (Options metadataOf)
open Cache.Metadata (getEpochTime)
variable {setting : Setting} {options : Options}

/-- The time of creation in the metadata of a record. -/
def createdAt (setting : Setting) (record : RecordBuffer) : Int :=
  getEpochTime (metadataOf setting.cacheRecordSerializer record)

/-- The hand of `Evict` comes to a bucket within a number of turns. -/
def Reaches (hand : UInt64) (turns : Nat) (i : setting.BucketIndex) : Prop :=
  ∃ k < turns, i.val = (hand.toNat + k) % 2 ^ 64 % setting.numBuckets.toNat

/-- A pass over buckets has still to look at a slot, with the time that it has read. -/
def MayVisit (hand : UInt64) (s : setting.Slot) (time : Int) : Phase setting → Prop
  | .sweeping _ (.basedOnTime curEpochTime) i slots =>
    curEpochTime = time ∧ s.1 = i ∧ s.2 ∈ slots
  | .sweeping _ (.clock curEpochTime turns numBytesToFree) i slots =>
    curEpochTime = time ∧
      (s.1 = i ∧ s.2 ∈ slots ∨ numBytesToFree ≠ 0 ∧ Reaches hand turns s.1)
  | .evicting _ curEpochTime turns numBytesToFree =>
    curEpochTime = time ∧ numBytesToFree ≠ 0 ∧ Reaches hand turns s.1
  | _ => False

theorem reaches_hand {i : setting.BucketIndex}
    (hi : i.val = hand.toNat % setting.numBuckets.toNat) : Reaches hand (turns + 1) i := by
  refine ⟨0, Nat.succ_pos _, ?_⟩
  rw [Nat.add_zero, Nat.mod_eq_of_lt hand.toNat_lt]
  exact hi

theorem Reaches.succ {i : setting.BucketIndex} (h : Reaches (hand + 1) turns i) :
    Reaches hand (turns + 1) i := by
  obtain ⟨k, hk, hi⟩ := h
  refine ⟨k + 1, Nat.succ_lt_succ hk, hi.trans (congrArg (· % _) ?_)⟩
  rw [UInt64.toNat_add, UInt64.toNat_one]
  omega

theorem mayVisit_cons (p : SlotIndex) {sweep : Sweep}
    (h : MayVisit hand s time (.sweeping record sweep i slots)) :
    MayVisit hand s time (.sweeping record sweep i (p :: slots)) := by
  cases sweep with
  | basedOnTime curEpochTime => exact ⟨h.1, h.2.1, List.mem_cons_of_mem _ h.2.2⟩
  | clock curEpochTime turns numBytesToFree =>
    exact ⟨h.1, h.2.imp_left fun hslot => ⟨hslot.1, List.mem_cons_of_mem _ hslot.2⟩⟩

theorem mayVisit_of_removed {rs : RecordSerializer} {sweep : Sweep}
    (h : MayVisit hand s time (.sweeping record (sweep.removed rs removed) i slots)) :
    MayVisit hand s time (.sweeping record sweep i slots) := by
  cases sweep with
  | basedOnTime curEpochTime => exact h
  | clock curEpochTime turns numBytesToFree =>
    refine ⟨h.1, h.2.imp_right fun hnext => ⟨?_, hnext.2⟩⟩
    rintro rfl
    exact hnext.1 rfl

theorem holdsEvictMutex_cons (p : SlotIndex) {sweep : Sweep} {i : setting.BucketIndex}
    (h : (Phase.sweeping record sweep i slots).holdsEvictMutex = true) :
    (Phase.sweeping record sweep i (p :: slots)).holdsEvictMutex = true := by
  cases sweep with
  | basedOnTime curEpochTime => exact h
  | clock curEpochTime turns numBytesToFree => rfl

theorem holdsEvictMutex_of_removed {rs : RecordSerializer} {sweep : Sweep}
    {i : setting.BucketIndex}
    (h : (Phase.sweeping record (sweep.removed rs removed) i slots).holdsEvictMutex = true) :
    (Phase.sweeping record sweep i slots).holdsEvictMutex = true := by
  cases sweep with
  | basedOnTime curEpochTime => exact h
  | clock curEpochTime turns numBytesToFree => rfl

theorem mayVisit_of_hand {phase : Phase setting} (hfree : phase.holdsEvictMutex = false)
    (h : MayVisit hand s time phase) (hand' : UInt64) : MayVisit hand' s time phase := by
  cases phase with
  | sweeping record sweep i slots =>
    cases sweep with
    | basedOnTime curEpochTime => exact h
    | clock curEpochTime turns numBytesToFree => cases hfree
  | evicting record curEpochTime turns numBytesToFree => cases hfree
  | _ => exact h.elim

section Acts
variable [Platform] {others : List (TableThreads.Thread setting)}
  {t t' : Table (CacheConfig setting options)} {th th' : TableThreads.Thread setting}
  {label : TableThreads.Label setting}

omit [Platform] in
theorem keptByAccess_createdAt (setting : Setting) (time : Int) :
    KeptByAccess setting.cacheRecordSerializer (createdAt setting · ≤ time) := by
  intro record set hcreated
  obtain ⟨-, hkey, hsize⟩ :=
    Cache.keeps_of_updateAccessStatus setting.cacheRecordSerializer record set trivial
  refine ⟨?_, hkey, hsize⟩
  change getEpochTime _ ≤ time
  rw [Cache.getEpochTime_storeMetadata]
  exact hcreated

omit [Platform] in
theorem load_of_touched {t t' : SharedHashTable setting} (htouch : Cache.Touched t s r' t')
    (hr : t.load s = some r) (hcreated : createdAt setting r' = createdAt setting r)
    (hload : t'.load s' = some record') : ∃ record, t.load s' = some record ∧
      createdAt setting record' = createdAt setting record := by
  rw [htouch.stored.load, Function.update_apply] at hload
  split_ifs at hload with heq
  · obtain rfl := Option.some.inj hload
    exact ⟨r, by rw [heq, hr], hcreated⟩
  · exact ⟨record', hload, rfl⟩

omit [Platform] in
theorem load_of_unlinked {t t' : SharedHashTable setting} (hunlink : ReadWrite.Unlinked t s old t')
    (hload : t'.load s' = some record') : ∃ record, t.load s' = some record ∧
      createdAt setting record' = createdAt setting record := by
  rw [hunlink.stored.load, Function.update_apply] at hload
  split_ifs at hload
  exact ⟨record', hload, rfl⟩

omit [Platform] in
theorem createdAt_of_visit {sweep : Sweep}
    (h : sweep.visit setting.cacheRecordSerializer options record = some record') :
    createdAt setting record' = createdAt setting record := by
  rcases TableThreads.Sweep.visit_cases h with rfl | rfl
  · rfl
  · exact Cache.getEpochTime_storeMetadata _ _ false

theorem load_of_act (h : TableThreads.Act (CacheConfig setting options) others t th label t' th')
    (hs : t.hashTable.Consistent setting.cacheRecordSerializer)
    (hload : t'.hashTable.load s = some record') :
    (∃ record, t.hashTable.load s = some record ∧
        createdAt setting record' = createdAt setting record) ∨
      ∃ old, label = .publish s record' old := by
  cases h with
  | visitStays hcache hvisited hvisit =>
    exact .inl (load_of_touched (Cache.touched_setBucket hvisited _) hvisited
      (createdAt_of_visit hvisit) hload)
  | visitRemoves hcache hvisited hvisit =>
    exact .inl (load_of_unlinked (ReadWrite.unlinked_of_load hvisited) hload)
  | createRecordBuffer curEpochTime hcreate =>
    obtain ⟨allocator, rfl, -⟩ := TableThreads.createRecordBuffer_allocates hcreate
    exact .inl ⟨record', hload, rfl⟩
  | createRecordBufferThrows curEpochTime hcreate =>
    obtain ⟨allocator, rfl, -⟩ := TableThreads.createRecordBuffer_allocates hcreate
    exact .inl ⟨record', hload, rfl⟩
  | add hinfo hlock hslot hpublish =>
    have hp := published_of_scan hs hinfo hslot hpublish
    change SharedHashTable.load _ s = some record' at hload
    rw [Table.setHashTable, hp.stored.load, Function.update_apply] at hload
    split_ifs at hload with heq
    · obtain rfl := Option.some.inj hload
      exact .inr ⟨_, by rw [heq]⟩
    · exact .inl ⟨record', hload, rfl⟩
  | remove hinfo hlock hfind =>
    have hfound : t.hashTable.load (_, _) = some _ := (Bucket.find?_some hfind).1
    exact .inl (load_of_unlinked (ReadWrite.unlinked_of_load hfound) hload)
  | touch found r =>
    change SharedHashTable.load
      (TableThreads.touch t.hashTable setting.cacheRecordSerializer found r.address) s =
        some record' at hload
    rcases touch_cases t.hashTable setting.cacheRecordSerializer found r.address with
      heq | ⟨record, hfound, heq⟩
    · rw [heq] at hload
      exact .inl ⟨record', hload, rfl⟩
    · rw [heq] at hload
      exact .inl (load_of_touched (Cache.touched_setBucket hfound _) hfound
        (Cache.getEpochTime_storeMetadata _ _ true) hload)
  | _ => exact .inl ⟨record', hload, rfl⟩

/-- A step passes slots, and takes a reading of the clock only from the clock. -/
theorem mayVisit_of_act
    (h : TableThreads.Act (CacheConfig setting options) others t th label t' th')
    (htimely : Timely options now t.hashTable th.phase th'.phase)
    (hvisit : MayVisit t'.currentEvictBucketIndex s time th'.phase) :
    MayVisit t.currentEvictBucketIndex s time th.phase ∨ time = now := by
  cases h with
  | callAdd record =>
    simp only [TableThreads.startAdd] at hvisit
    split_ifs at hvisit
    · exact hvisit.elim
    · exact hvisit.elim
  | evictBasedOnTime curEpochTime hinfo hlock => exact htimely.elim
  | visitEmpty hload => exact .inl (mayVisit_cons _ hvisit)
  | visitStays hcache hload hvisited => exact .inl (mayVisit_cons _ hvisit)
  | visitRemoves hcache hload hvisited => exact .inl (mayVisit_cons _ (mayVisit_of_removed hvisit))
  | endSweep record sweep =>
    cases sweep with
    | basedOnTime curEpochTime => exact hvisit.elim
    | clock curEpochTime turns numBytesToFree => exact .inl ⟨hvisit.1, .inr hvisit.2⟩
  | calculate hcache curEpochTime =>
    simp only [TableThreads.afterCalculate] at hvisit htimely
    split_ifs at hvisit htimely
    · exact hvisit.elim
    · exact .inr (hvisit.1.symm.trans htimely)
    · exact hvisit.elim
  | evictBucket hbytes hi hlock =>
    obtain ⟨htime, ⟨hbucket, -⟩ | ⟨hleft, hreaches⟩⟩ := hvisit
    · exact .inl ⟨htime, hbytes, reaches_hand (hbucket ▸ hi)⟩
    · exact .inl ⟨htime, hleft, hreaches.succ⟩
  | update u tasks => exact .inl hvisit
  | release record tasks => exact .inl hvisit
  | _ => exact hvisit.elim

theorem hand_of_act (h : TableThreads.Act (CacheConfig setting options) others t th label t' th') :
    t'.currentEvictBucketIndex = t.currentEvictBucketIndex ∨
      th.phase.holdsEvictMutex = true := by
  cases h with
  | evictBucket hbytes hi hlock => exact .inr rfl
  | _ => exact .inl rfl

theorem holdsEvictMutex_of_act
    (h : TableThreads.Act (CacheConfig setting options) others t th label t' th')
    (hholds : th'.phase.holdsEvictMutex = true) :
    th.phase.holdsEvictMutex = true ∨ ∀ x ∈ others, x.phase.holdsEvictMutex = false := by
  cases h with
  | lockEvictMutex hmutex => exact .inr hmutex
  | callAdd record =>
    simp only [TableThreads.startAdd] at hholds
    split_ifs at hholds <;> cases hholds
  | endSweep record sweep =>
    cases sweep with
    | basedOnTime curEpochTime => cases hholds
    | clock curEpochTime turns numBytesToFree => exact .inl rfl
  | calculate hcache curEpochTime =>
    simp only [TableThreads.afterCalculate] at hholds
    split_ifs at hholds with hzero hlocked
    · cases hholds
    · exact .inl hlocked
    · cases hholds
  | evictBucket hbytes hi hlock => exact .inl rfl
  | visitEmpty hload => exact .inl (holdsEvictMutex_cons _ hholds)
  | visitStays hcache hload hvisit => exact .inl (holdsEvictMutex_cons _ hholds)
  | visitRemoves hcache hload hvisit =>
    exact .inl (holdsEvictMutex_cons _ (holdsEvictMutex_of_removed hholds))
  | _ => first | exact .inl hholds | cases hholds

theorem carries_of_act (h : TableThreads.Act (CacheConfig setting options) others t th label t' th')
    (htimely : Timely options now t.hashTable th.phase th'.phase) (hpos : 0 ≤ now)
    (hlt : now < 2 ^ 31)
    (hth : th.phase.Carries (fun _ => True) (createdAt setting · ≤ now)) :
    th'.phase.Carries (fun _ => True) (createdAt setting · ≤ now) := by
  cases h with
  | createRecordBuffer curEpochTime hcreate =>
    have hcreate' : Cache.createRecordBuffer setting.cacheRecordSerializer t.hashTable _ _ now =
        (_, .ok _) := Prod.ext rfl htimely
    have htime := Cache.getEpochTime_of_serializeWithMeta rfl
      (Cache.createRecordBuffer_ok hcreate').2
    refine Int.le_of_eq ((htime _).trans ?_)
    omega
  | update u tasks => exact hth
  | release record tasks => exact hth
  | callAdd record =>
    simp only [TableThreads.startAdd]
    split_ifs <;> trivial
  | endSweep record sweep => cases sweep <;> trivial
  | calculate hcache curEpochTime =>
    simp only [TableThreads.afterCalculate]
    split_ifs <;> trivial
  | _ => trivial

end Acts

end L4.ClockedThreads
