import L4.CacheCounters

namespace L4
set_option autoImplicit true

namespace Bucket
variable {visit : RecordBuffer → Option RecordBuffer}

@[simp] theorem chainLength_sweepSlots (ps : List SlotIndex) (b : Bucket RecordBuffer) :
    (b.sweepSlots visit ps).1.chainLength = b.chainLength := by
  induction ps generalizing b with
  | nil => rfl
  | cons p ps ih =>
    rw [sweepSlots]
    cases b.load p with
    | none => exact ih b
    | some record =>
      simp only
      cases visit record with
      | none => exact (ih _).trans (chainLength_updateRecord b)
      | some record' => exact (ih _).trans (chainLength_storeData b p _)

theorem load_sweepSlots {ps : List SlotIndex} (hnodup : ps.Nodup) (b : Bucket RecordBuffer)
    (hps : ∀ p ∈ ps, p.entry < b.chainLength) (q : SlotIndex) :
    (b.sweepSlots visit ps).1.load q = if q ∈ ps then (b.load q).bind visit else b.load q := by
  induction ps generalizing b with
  | nil => rfl
  | cons p ps ih =>
    obtain ⟨hp, hnodup⟩ := List.nodup_cons.mp hnodup
    have hentry := hps p List.mem_cons_self
    have hrest : ∀ p' ∈ ps, p'.entry < b.chainLength :=
      fun p' hp' => hps p' (List.mem_cons_of_mem _ hp')
    have hvisited (r : Option RecordBuffer) (hr : (b.load p).bind visit = r)
        {b' : Bucket RecordBuffer} (hload : b'.load = Function.update b.load p r)
        (hlen : b'.chainLength = b.chainLength) :
        (b'.sweepSlots visit ps).1.load q =
          if q ∈ p :: ps then (b.load q).bind visit else b.load q := by
      rw [ih hnodup b' (hlen ▸ hrest), hload, Function.update_apply]
      by_cases hq : q = p
      · rw [hq, if_neg hp, if_pos rfl, if_pos List.mem_cons_self, hr]
      · simp only [hq, List.mem_cons, false_or, if_false]
    rw [sweepSlots]
    cases hload : b.load p with
    | none =>
      exact hvisited none (by rw [hload]; rfl) (by rw [← hload, Function.update_eq_self]) rfl
    | some record =>
      simp only
      cases hvisit : visit record with
      | none =>
        exact hvisited none (by rw [hload, Option.bind_some, hvisit]) (load_updateRecord hentry)
          (chainLength_updateRecord b)
      | some record' =>
        refine hvisited (some record') (by rw [hload, Option.bind_some, hvisit]) ?_
          (chainLength_storeData b p _)
        funext q
        simp only [load_storeData, Function.update_apply, hentry, and_true]

theorem nodup_positions (b : Bucket Data) : b.positions.Nodup :=
  b.positions_pairwise.imp fun h heq => (heq ▸ h).elim (Nat.lt_irrefl _)
    fun h => Fin.lt_irrefl _ h.2

theorem load_sweep (b : Bucket RecordBuffer) (p : SlotIndex) :
    (b.sweep visit).1.load p = (b.load p).bind visit := by
  rw [sweep, load_sweepSlots b.nodup_positions b fun p hp => mem_positions.mp hp]
  by_cases hp : p ∈ b.positions
  · rw [if_pos hp]
  · rw [if_neg hp]
    cases hload : b.load p with
    | none => rfl
    | some record => exact absurd (mem_positions_of_load hload) hp

theorem records_of_bind {b b' : Bucket RecordBuffer} (hlen : b'.chainLength = b.chainLength)
    (hload : ∀ p, b'.load p = (b.load p).bind visit) :
    b'.records = b.records.filterMap visit := by
  rw [records, records, List.filterMap_filterMap, positions, hlen, ← positions]
  exact List.filterMap_congr fun p _ => hload p

end Bucket

namespace Cache
open SharedHashTable (contents recordWeight)
open Metadata
variable {setting : Setting} {visit : RecordBuffer → Option RecordBuffer}

namespace WritableHashTable
variable {t : WritableHashTable setting} {rs : RecordSerializer}

theorem load_sweepBucket (rs : RecordSerializer) (t : WritableHashTable setting)
    (i : setting.BucketIndex) (s : setting.Slot) :
    (sweepBucket rs visit t i).1.base.hashTable.load s =
      if s.1 = i then (t.base.hashTable.load s).bind visit else t.base.hashTable.load s := by
  obtain ⟨epochManager, -, heq⟩ := sweepBucket_eq rs visit t i
  rw [heq, SharedHashTable.load_updatePerfData, SharedHashTable.load,
    SharedHashTable.getElem_setBucket]
  split_ifs with hj
  · rw [Bucket.load_sweep, ← hj, SharedHashTable.load]
  · rfl

theorem chainLength_sweepBucket (rs : RecordSerializer) (t : WritableHashTable setting)
    (i j : setting.BucketIndex) :
    (sweepBucket rs visit t i).1.base.hashTable.buckets[j].chainLength =
      t.base.hashTable.buckets[j].chainLength := by
  obtain ⟨epochManager, -, heq⟩ := sweepBucket_eq rs visit t i
  rw [heq, SharedHashTable.buckets_updatePerfData, SharedHashTable.getElem_setBucket]
  split_ifs with hj
  · rw [hj]
    exact Bucket.chainLength_sweepSlots _ _
  · rfl

theorem currentEvictBucketIndex_sweepBucket (rs : RecordSerializer)
    (t : WritableHashTable setting) (i : setting.BucketIndex) :
    (sweepBucket rs visit t i).1.currentEvictBucketIndex = t.currentEvictBucketIndex := by
  obtain ⟨epochManager, -, heq⟩ := sweepBucket_eq rs visit t i
  rw [heq]

/-- The rule of the loop of `Evict`: what each turn keeps holds at the end, where enough bytes are
free or all turns have been taken. -/
theorem evictLoop_rule {I : (turns numBytesToFree : Nat) → WritableHashTable setting → Prop}
    (hstep : ∀ k numBytesToFree t, k < b → numBytesToFree ≠ 0 → I k numBytesToFree t →
      ∀ i : setting.BucketIndex,
        i.val = t.currentEvictBucketIndex.toNat % setting.numBuckets.toNat →
        let swept := sweepBucket rs visit
          { t with currentEvictBucketIndex := t.currentEvictBucketIndex + 1 } i
        I (k + 1) (swept.2.foldl (bytesLeftToFree rs) numBytesToFree) swept.1)
    (hb : setting.numBuckets.toNat ≠ 0) {n : Nat} (hn : k + n = b)
    (h : I k numBytesToFree t) :
    ∃ k' numBytesToFree', I k' numBytesToFree' (evictLoop rs visit n numBytesToFree t) ∧
      (numBytesToFree' = 0 ∨ k' = b) := by
  induction n generalizing k numBytesToFree t with
  | zero => exact ⟨k, numBytesToFree, h, .inr hn⟩
  | succ n ih =>
    rw [evictLoop]
    by_cases hzero : numBytesToFree = 0
    · rw [if_pos hzero]
      exact ⟨k, numBytesToFree, h, .inl hzero⟩
    · rw [if_neg hzero, dif_neg hb]
      exact ih (by omega) (hstep k numBytesToFree t (by omega) hzero h _ rfl)

end WritableHashTable

section Sizes
variable {rs : RecordSerializer} {needed : Nat}

/-- The bytes that one record counts for. -/
def recordSize (rs : RecordSerializer) (record : RecordBuffer) : Int :=
  totalDataSize (recordWeight rs record)

/-- The index size of a table when its records are left out. -/
def emptyIndexSize [Platform] (t : SharedHashTable setting) : Int :=
  SharedHashTable.initialIndexSize setting + t.chainingEntries * sizeofEntry

theorem totalDataSize_contents [Platform] (rs : RecordSerializer) (t : SharedHashTable setting) :
    totalDataSize (contents rs t) = emptyIndexSize t + t.total (recordSize rs) := by
  have hsum : t.total (recordSize rs) =
      t.total (recordWeight rs · .totalKeySize) + t.total (recordWeight rs · .totalValueSize) +
        t.total (recordWeight rs · .totalIndexSize) := by
    simp only [SharedHashTable.total, ← List.sum_map_add]
    rfl
  rw [hsum]
  simp only [totalDataSize, contents, SharedHashTable.emptyContents, SharedHashTable.entryWeight,
    emptyIndexSize]
  ring

theorem Accounted.totalDataSize_eq [Platform] {t : SharedHashTable setting} (h : Accounted t) :
    totalDataSize t.perfData = totalDataSize (contents setting.cacheRecordSerializer t) := by
  rw [totalDataSize, h.counters _ (by simp [ReadWrite.Counted]),
    h.counters _ (by simp [ReadWrite.Counted]), h.counters _ (by simp [ReadWrite.Counted])]
  rfl

theorem Swept.totalDataSize [Platform] {t t' : SharedHashTable setting}
    (hs : Swept visit t removed t')
    (hvisit : ∀ record record', visit record = some record' → Keeps rs P record record')
    (h : Sound rs P t) :
    totalDataSize (SharedHashTable.contents rs t') =
      totalDataSize (SharedHashTable.contents rs t) - (removed.map (recordSize rs)).sum := by
  have hsum : (removed.map (recordSize rs)).sum =
      (removed.map (recordWeight rs · .totalKeySize)).sum +
        (removed.map (recordWeight rs · .totalValueSize)).sum +
        (removed.map (recordWeight rs · .totalIndexSize)).sum := by
    simp only [← List.sum_map_add]
    rfl
  rw [hsum, Cache.totalDataSize, hs.contents hvisit h, hs.contents hvisit h,
    hs.contents hvisit h, Cache.totalDataSize]
  ring

theorem le_foldl_bytesLeftToFree (rs : RecordSerializer) (removed : List RecordBuffer)
    (numBytesToFree : Nat) :
    (numBytesToFree : Int) ≤
      removed.foldl (bytesLeftToFree rs) numBytesToFree + (removed.map (recordSize rs)).sum := by
  induction removed generalizing numBytesToFree with
  | nil => simp
  | cons record removed ih =>
    have hrest := ih (bytesLeftToFree rs numBytesToFree record)
    have hsize : recordSize rs record = (rs.keyOf record).size + (rs.valueOf record).size +
        rs.calculateRecordOverhead := rfl
    have hmod := Nat.mod_le ((rs.keyOf record).size + (rs.valueOf record).size) (2 ^ 32)
    have hleft : numBytesToFree ≤ bytesLeftToFree rs numBytesToFree record +
        ((rs.keyOf record).size + (rs.valueOf record).size) := by
      simp only [bytesLeftToFree]
      split_ifs <;> omega
    rw [List.foldl_cons, List.map_cons, List.sum_cons]
    omega

end Sizes

theorem exists_turn (start : Nat) {n i : Nat} (hi : i < n) : ∃ k < n, i = (start + k) % n := by
  have hpos : 0 < n := Nat.zero_lt_of_lt hi
  have hlt := Nat.mod_lt start hpos
  have hround : start % n + (i + (n - start % n)) = i + n := by omega
  refine ⟨(i + (n - start % n)) % n, Nat.mod_lt _ hpos, ?_⟩
  rw [Nat.add_mod_mod, ← Nat.mod_add_mod, hround, Nat.add_mod_right, Nat.mod_eq_of_lt hi]

section Evict
variable [Platform] {options : Options} {curEpochTime : Int} {t : WritableHashTable setting}

omit [Platform] in
theorem visitClock_visitClock {rs : RecordSerializer}
    (hvisit : visitClock rs options curEpochTime record = some record') :
    visitClock rs options curEpochTime record' = none := by
  simp only [visitClock] at hvisit
  split_ifs at hvisit
  obtain rfl := Option.some.inj hvisit
  have haccess := Metadata.isAccessed_updateAccessStatus_false (metadataOf rs record)
  rw [← metadataOf_storeMetadata] at haccess
  simp only [visitClock]
  split_ifs with hexpired haccessed
  · rfl
  · cases haccessed.symm.trans haccess
  · rfl

theorem totalDataSize_sweepBucket {visit : RecordBuffer → Option RecordBuffer}
    (h : Accounted t.base.hashTable)
    (hvisit : ∀ record record', visit record = some record' →
      Keeps setting.cacheRecordSerializer (CacheRecord setting) record record')
    (i : setting.BucketIndex) :
    let rs := setting.cacheRecordSerializer
    let swept := WritableHashTable.sweepBucket rs visit t i
    totalDataSize swept.1.base.hashTable.perfData =
      totalDataSize t.base.hashTable.perfData - (swept.2.map (recordSize rs)).sum := by
  intro rs swept
  obtain ⟨epochManager, hswept, heq⟩ := WritableHashTable.sweepBucket_eq rs visit t i
  have hsize := hswept.totalDataSize hvisit h.sound
  rw [(accounted_sweepBucket h hvisit i).totalDataSize_eq, h.totalDataSize_eq, ← hsize, heq]
  rfl

/-- The turns of `Evict` so far. A bucket that the hand has passed holds only records that have
not been accessed since, and one that it has passed twice is empty. -/
structure Evicting (options : Options) (curEpochTime : Int) (needed : Nat)
    (t₀ : WritableHashTable setting) (turns numBytesToFree : Nat)
    (t : WritableHashTable setting) : Prop where
  accounted : Accounted t.base.hashTable
  freed : totalDataSize t.base.hashTable.perfData + needed ≤
    totalDataSize t₀.base.hashTable.perfData + numBytesToFree
  hand : t.currentEvictBucketIndex.toNat =
    (t₀.currentEvictBucketIndex.toNat + turns) % 2 ^ 64
  idle : ∀ k < turns, ∀ s record, t.base.hashTable.load s = some record →
    s.1.val = (t₀.currentEvictBucketIndex.toNat + k) % setting.numBuckets.toNat →
    visitClock setting.cacheRecordSerializer options curEpochTime record = none
  empty : ∀ k, k + setting.numBuckets.toNat < turns → ∀ s : setting.Slot,
    s.1.val = (t₀.currentEvictBucketIndex.toNat + k) % setting.numBuckets.toNat →
    t.base.hashTable.load s = none

theorem evicting_refl (h : Accounted t.base.hashTable) :
    Evicting options curEpochTime needed t 0 needed t where
  accounted := h
  freed := Int.le_refl _
  hand := (Nat.mod_eq_of_lt t.currentEvictBucketIndex.toNat_lt).symm
  idle := fun _ hk => absurd hk (Nat.not_lt_zero _)
  empty := fun _ hk => absurd hk (Nat.not_lt_zero _)

theorem Evicting.step {t₀ t₁ : WritableHashTable setting}
    (h : Evicting options curEpochTime needed t₀ turns numBytesToFree t)
    (hhand : t₀.currentEvictBucketIndex.toNat + turns < 2 ^ 64) {i : setting.BucketIndex}
    (hi : i.val = t.currentEvictBucketIndex.toNat % setting.numBuckets.toNat)
    (hbase : t₁.base = t.base)
    (hnext : t₁.currentEvictBucketIndex = t.currentEvictBucketIndex + 1) :
    let rs := setting.cacheRecordSerializer
    let swept := WritableHashTable.sweepBucket rs (visitClock rs options curEpochTime) t₁ i
    Evicting options curEpochTime needed t₀ (turns + 1)
      (swept.2.foldl (bytesLeftToFree rs) numBytesToFree) swept.1 := by
  intro rs swept
  have hkeeps (record record' : RecordBuffer)
      (hvisit : visitClock rs options curEpochTime record = some record') :
      Keeps rs (CacheRecord setting) record record' := keeps_visitClock hvisit
  have hload (s : setting.Slot) : swept.1.base.hashTable.load s = _ :=
    WritableHashTable.load_sweepBucket rs t₁ i s
  have haccounted := accounted_sweepBucket (t := t₁) (hbase ▸ h.accounted) hkeeps i
  rw [h.hand, Nat.mod_eq_of_lt hhand] at hi
  rw [hbase] at hload
  refine ⟨haccounted, ?_, ?_, ?_, ?_⟩
  · have hfreed := h.freed
    have hremoved := le_foldl_bytesLeftToFree rs swept.2 numBytesToFree
    have htotal : totalDataSize swept.1.base.hashTable.perfData =
        totalDataSize t₁.base.hashTable.perfData - (swept.2.map (recordSize rs)).sum :=
      totalDataSize_sweepBucket (hbase ▸ h.accounted) hkeeps i
    rw [hbase] at htotal
    omega
  · rw [WritableHashTable.currentEvictBucketIndex_sweepBucket, hnext, UInt64.toNat_add, h.hand]
    exact Nat.mod_add_mod _ _ _
  · intro k hk s record hrecord hs
    rw [hload] at hrecord
    split_ifs at hrecord with hsi
    · obtain ⟨record', -, hvisit⟩ := Option.bind_eq_some_iff.mp hrecord
      exact visitClock_visitClock hvisit
    · apply h.idle k _ s record hrecord hs
      refine Nat.lt_of_le_of_ne (Nat.le_of_lt_succ hk) fun heq => hsi (Fin.ext ?_)
      rw [hs, heq, hi]
  · intro k hk s hs
    rw [hload]
    split_ifs with hsi
    · cases hrecord : t.base.hashTable.load s with
      | none => rfl
      | some record =>
        have hpos : 0 < setting.numBuckets.toNat := Nat.zero_lt_of_lt i.isLt
        exact h.idle k (by omega) s record hrecord hs
    · apply h.empty k _ s hs
      refine Nat.lt_of_le_of_ne (Nat.le_of_lt_succ hk) fun heq => hsi (Fin.ext ?_)
      rw [hs, hi, ← heq, ← Nat.add_assoc, Nat.add_mod_right]

/-- Two rounds of the hand remove every record. -/
theorem Evicting.load_eq_none {t₀ : WritableHashTable setting}
    (h : Evicting options curEpochTime needed t₀ (setting.numBuckets.toNat * 2) numBytesToFree t)
    (s : setting.Slot) : t.base.hashTable.load s = none := by
  obtain ⟨k, hk, hs⟩ := exists_turn t₀.currentEvictBucketIndex.toNat s.1.isLt
  exact h.empty k (by omega) s hs

theorem evicting_evictLoop (options : Options) (curEpochTime : Int)
    (h : Accounted t.base.hashTable) (hb : setting.numBuckets ≠ 0)
    (hhand : t.currentEvictBucketIndex.toNat + setting.numBuckets.toNat * 2 ≤ 2 ^ 64)
    (needed : Nat) :
    let rs := setting.cacheRecordSerializer
    let t' := WritableHashTable.evictLoop rs (visitClock rs options curEpochTime)
      (setting.numBuckets.toNat * 2) needed t
    ∃ turns numBytesToFree, Evicting options curEpochTime needed t turns numBytesToFree t' ∧
      (numBytesToFree = 0 ∨ turns = setting.numBuckets.toNat * 2) := by
  intro rs t'
  have hn : setting.numBuckets.toNat ≠ 0 := fun hzero => hb (UInt32.toNat_inj.mp hzero)
  refine WritableHashTable.evictLoop_rule (b := setting.numBuckets.toNat * 2)
    (fun k numBytesToFree t₁ hk _ hevicting i hi => ?_) hn (Nat.zero_add _) (evicting_refl h)
  exact hevicting.step (by omega) hi rfl rfl

end Evict

end Cache

end L4
