import L4.CacheClock

namespace L4.Cache
set_option autoImplicit true
open WritableHashTable (evict)
open Metadata Sweeping
variable {setting : Setting}

/-- The bytes of a record that `Evict` counts, without the wrap on 32 bits. -/
def bytesOf (rs : RecordSerializer) (record : RecordBuffer) : Nat :=
  (rs.keyOf record).size + (rs.valueOf record).size

section Rule
variable (options : Options) (t : WritableHashTable setting) (needed : Nat) (curEpochTime : Int)

/-- The records that a call of `Evict` removes in the turns before a given one. -/
def evictedBefore (k : Nat) : List RecordBuffer :=
  (List.range k).flatMap (removed setting.cacheRecordSerializer
    (visitClock setting.cacheRecordSerializer options curEpochTime) (evicting options t needed))

/-- No record that is not expired is removed when the records removed before it make up for the
bytes to free. -/
def StopsWhenFreed : Prop :=
  let rs := setting.cacheRecordSerializer
  ∀ k < setting.numBuckets.toNat * 2, ∀ before record after,
    removed rs (visitClock rs options curEpochTime) (evicting options t needed) k =
      before ++ record :: after →
    isExpired (metadataOf rs record) curEpochTime options.recordTimeToLive = false →
    ((evictedBefore options t needed curEpochTime k ++ before).map (bytesOf rs)).sum <
      calculateNumBytesToFree options t.base.hashTable.perfData needed

/-- The number of the bucket that the hand comes to in a turn. -/
def bucketInTurn (k : Nat) : Nat :=
  (t.currentEvictBucketIndex.toNat + k) % 2 ^ 64 % setting.numBuckets.toNat

/-- How often the hand has passed a bucket before a turn. -/
def timesPassed (k i : Nat) : Nat := (List.range k).countP fun j => bucketInTurn t j = i

/-- What the hand finds to remove in a turn, when the buckets hold the given records at the start of
the call: first those that are expired or not accessed, then the others. -/
def offered (visit : RecordBuffer → Option RecordBuffer)
    (records : setting.BucketIndex → List RecordBuffer) (k : Nat) : List RecordBuffer :=
  if h : setting.numBuckets.toNat = 0 then []
  else
    let i : setting.BucketIndex := ⟨bucketInTurn t k, Nat.mod_lt _ (Nat.pos_of_ne_zero h)⟩
    match timesPassed t k i with
    | 0 => (records i).filter fun record => (visit record).isNone
    | 1 => (records i).filterMap visit
    | _ => []

/-- What the hand finds to remove in a turn, as the records are at the start of the call. -/
def candidates (k : Nat) : List RecordBuffer :=
  offered t (visitClock setting.cacheRecordSerializer options curEpochTime)
    (fun i => t.base.hashTable.buckets[i].records) k

def candidatesBefore (k : Nat) : List RecordBuffer :=
  (List.range k).flatMap (candidates options t curEpochTime)

/-- In every turn that is taken, because the sizes of the candidates before it, on 32 bits, do not
make up for the bytes to free, the candidates of the bucket do not make up for them either before
one that is not expired. -/
def NoExcess : Prop :=
  let rs := setting.cacheRecordSerializer
  let numBytesToFree := calculateNumBytesToFree options t.base.hashTable.perfData needed
  ∀ k < setting.numBuckets.toNat * 2,
    ((candidatesBefore options t curEpochTime k).map (bytesOf rs · % 2 ^ 32)).sum <
      numBytesToFree →
    ∀ before record after, candidates options t curEpochTime k = before ++ record :: after →
      isExpired (metadataOf rs record) curEpochTime options.recordTimeToLive = false →
      ((candidatesBefore options t curEpochTime k ++ before).map (bytesOf rs)).sum <
        numBytesToFree

end Rule

section Turns
variable {options : Options} {t : WritableHashTable setting} {needed : Nat} {curEpochTime : Int}

theorem foldl_bytesLeftToFree (rs : RecordSerializer) (records : List RecordBuffer) (n : Nat) :
    records.foldl (bytesLeftToFree rs) n = n - (records.map (bytesOf rs · % 2 ^ 32)).sum := by
  induction records generalizing n with
  | nil => rfl
  | cons record records ih =>
    have hleft : bytesLeftToFree rs n record = n - bytesOf rs record % 2 ^ 32 := by
      simp only [bytesLeftToFree, bytesOf]
      split_ifs <;> omega
    rw [List.foldl_cons, ih, hleft, List.map_cons, List.sum_cons, Nat.sub_sub]

theorem numBytesToFree_turn {rs : RecordSerializer} {visit : RecordBuffer → Option RecordBuffer}
    (s : Sweeping setting) : (turn rs visit s).1.numBytesToFree =
      (turn rs visit s).2.foldl (bytesLeftToFree rs) s.numBytesToFree := by
  rw [turn]
  split_ifs <;> rfl

theorem timesPassed_succ (t : WritableHashTable setting) (k i : Nat) :
    timesPassed t (k + 1) i = timesPassed t k i + if bucketInTurn t k = i then 1 else 0 := by
  simp only [timesPassed, List.range_succ, List.countP_append, List.countP_singleton,
    decide_eq_true_eq]

theorem hand_eq_bucketInTurn {rs : RecordSerializer} {visit : RecordBuffer → Option RecordBuffer}
    {s : Sweeping setting} (hb : setting.numBuckets.toNat ≠ 0)
    (htaken : ∀ j < k, Taken rs visit s j) :
    (after rs visit s k).hand = bucketInTurn s.table k := by
  rw [hand, counter_after hb htaken, bucketInTurn]

variable (options t needed curEpochTime) in
/-- A turn of a call of `Evict` is taken. -/
abbrev TakenTurn (k : Nat) : Prop :=
  Taken setting.cacheRecordSerializer
    (visitClock setting.cacheRecordSerializer options curEpochTime) (evicting options t needed) k

/-- A slot before a turn: as at the start, with the access bit of its record cleared, or empty. -/
theorem load_after (htaken : ∀ j < k, TakenTurn options t needed curEpochTime j)
    (slot : setting.Slot) :
    (after setting.cacheRecordSerializer
      (visitClock setting.cacheRecordSerializer options curEpochTime) (evicting options t needed)
      k).table.base.hashTable.load slot = match timesPassed t k slot.1 with
    | 0 => t.base.hashTable.load slot
    | 1 => (t.base.hashTable.load slot).bind
      (visitClock setting.cacheRecordSerializer options curEpochTime)
    | _ => none := by
  have hb : setting.numBuckets.toNat ≠ 0 := Nat.ne_zero_of_lt slot.1.isLt
  induction k with
  | zero => rfl
  | succ k ih =>
    have hbefore : ∀ j < k, TakenTurn options t needed curEpochTime j :=
      fun j hj => htaken j (Nat.lt_succ_of_lt hj)
    rw [load_after_succ, ih hbefore, hand_eq_bucketInTurn hb hbefore, timesPassed_succ]
    by_cases hi : bucketInTurn t k = slot.1.val
    · rw [if_pos ⟨htaken k (Nat.lt_succ_self k), hi.symm⟩, if_pos hi]
      match timesPassed t k slot.1 with
      | 0 => rfl
      | 1 =>
        cases hload : t.base.hashTable.load slot with
        | none => rfl
        | some record =>
          cases hvisit : visitClock setting.cacheRecordSerializer options curEpochTime record with
          | none => simp [hvisit]
          | some record' =>
            simpa [hvisit] using visitClock_visitClock hvisit
      | _ + 2 => rfl
    · rw [if_neg fun h => hi h.2.symm, if_neg hi, Nat.add_zero]

theorem records_after (htaken : ∀ j < k, TakenTurn options t needed curEpochTime j)
    (i : setting.BucketIndex) :
    (after setting.cacheRecordSerializer
      (visitClock setting.cacheRecordSerializer options curEpochTime) (evicting options t needed)
      k).table.base.hashTable.buckets[i].records = match timesPassed t k i with
    | 0 => t.base.hashTable.buckets[i].records
    | 1 => t.base.hashTable.buckets[i].records.filterMap
      (visitClock setting.cacheRecordSerializer options curEpochTime)
    | _ => [] := by
  have hchain := chainLength_after setting.cacheRecordSerializer
    (visitClock setting.cacheRecordSerializer options curEpochTime) (evicting options t needed) k i
  have hload (p : SlotIndex) := load_after htaken (i, p)
  simp only [SharedHashTable.load] at hload
  cases htimes : timesPassed t k i with
  | zero =>
    simp only [htimes] at hload
    have hrecords := Bucket.records_of_bind hchain fun p =>
      (hload p).trans (Option.bind_fun_some _).symm
    exact hrecords.trans List.filterMap_some
  | succ n =>
    cases n with
    | zero =>
      simp only [htimes] at hload
      exact Bucket.records_of_bind hchain hload
    | succ n =>
      simp only [htimes] at hload
      have hrecords := Bucket.records_of_bind hchain fun p =>
        (hload p).trans (Option.bind_fun_none _).symm
      exact hrecords.trans (List.filterMap_eq_nil_iff.mpr fun _ _ => rfl)

theorem removed_eq_candidates (htaken : ∀ j ≤ k, TakenTurn options t needed curEpochTime j) :
    removed setting.cacheRecordSerializer
      (visitClock setting.cacheRecordSerializer options curEpochTime) (evicting options t needed)
      k = candidates options t curEpochTime k := by
  have hbefore : ∀ j < k, TakenTurn options t needed curEpochTime j :=
    fun j hj => htaken j (Nat.le_of_lt hj)
  by_cases hb : setting.numBuckets.toNat = 0
  · rw [removed, turn_eq_self (.inr hb), candidates, offered, dif_pos hb]
  · have hhand := hand_eq_bucketInTurn hb hbefore
    rw [removed, candidates, offered, dif_neg hb, removed_turn (htaken k le_rfl)
      (i := ⟨bucketInTurn t k, Nat.mod_lt _ (Nat.pos_of_ne_zero hb)⟩) hhand,
      records_after hbefore]
    simp only
    match timesPassed t k (bucketInTurn t k) with
    | 0 => rfl
    | 1 =>
      refine List.filter_eq_self.mpr fun record hmem => ?_
      obtain ⟨record', -, hvisit⟩ := List.mem_filterMap.mp hmem
      rw [visitClock_visitClock hvisit]
      rfl
    | _ + 2 => rfl

theorem numBytesToFree_after (k : Nat) :
    (after setting.cacheRecordSerializer
      (visitClock setting.cacheRecordSerializer options curEpochTime) (evicting options t needed)
      k).numBytesToFree = calculateNumBytesToFree options t.base.hashTable.perfData needed -
        ((candidatesBefore options t curEpochTime k).map
          (bytesOf setting.cacheRecordSerializer · % 2 ^ 32)).sum := by
  induction k with
  | zero => rfl
  | succ k ih =>
    rw [candidatesBefore, List.range_succ, List.flatMap_append, List.flatMap_singleton,
      ← candidatesBefore, List.map_append, List.sum_append, ← Nat.sub_sub, ← ih, after_succ]
    by_cases htaken : TakenTurn options t needed curEpochTime k
    · have hremoved := removed_eq_candidates fun j hj => Taken.of_le htaken hj
      rw [← hremoved, ← foldl_bytesLeftToFree, numBytesToFree_turn]
      rfl
    · have hzero := not_not.mp htaken
      rw [turn_eq_self (.inl hzero), hzero, Nat.zero_sub]

theorem removed_of_not_taken (h : ¬ TakenTurn options t needed curEpochTime k) :
    removed setting.cacheRecordSerializer
      (visitClock setting.cacheRecordSerializer options curEpochTime) (evicting options t needed)
      k = [] := by
  rw [removed, turn_eq_self (.inl (not_not.mp h))]

theorem takenTurn_iff (k : Nat) : TakenTurn options t needed curEpochTime k ↔
    ((candidatesBefore options t curEpochTime k).map
      (bytesOf setting.cacheRecordSerializer · % 2 ^ 32)).sum <
        calculateNumBytesToFree options t.base.hashTable.perfData needed := by
  rw [TakenTurn, Taken, numBytesToFree_after]
  omega

theorem evictedBefore_eq (htaken : TakenTurn options t needed curEpochTime k) :
    evictedBefore options t needed curEpochTime k = candidatesBefore options t curEpochTime k :=
  List.flatMap_congr fun _ hj => removed_eq_candidates fun _ hi =>
    htaken.of_le (Nat.le_of_lt (Nat.lt_of_le_of_lt hi (List.mem_range.mp hj)))

/-- `Evict` stops when enough has been freed, if and only if the candidates allow it. -/
theorem stopsWhenFreed_iff_noExcess :
    StopsWhenFreed options t needed curEpochTime ↔ NoExcess options t needed curEpochTime := by
  constructor
  · intro h k hk hreached before record after hcandidates hexpired
    have htaken := (takenTurn_iff k).mpr hreached
    have hremoved := removed_eq_candidates fun j hj => Taken.of_le htaken hj
    rw [← evictedBefore_eq htaken]
    exact h k hk before record after (hremoved.trans hcandidates) hexpired
  · intro h k hk before record after hremoved hexpired
    by_cases htaken : TakenTurn options t needed curEpochTime k
    · have hcandidates := removed_eq_candidates fun j hj => Taken.of_le htaken hj
      rw [evictedBefore_eq htaken]
      exact h k hk ((takenTurn_iff k).mp htaken) before record after
        (hcandidates.symm.trans hremoved) hexpired
    · rw [removed_of_not_taken htaken] at hremoved
      simp at hremoved

end Turns

/-- One of the two records of a chain would do, and both are removed. -/
theorem excess_in_one_bucket :
    let platform : Platform := ⟨fun _ => (0, 0), 8, 64⟩
    let options : Options := ⟨250, 100, false⟩
    let s := ((Session.create {} ⟨0, []⟩ ⟨0, ⟨0, 0, [0], by decide⟩, ⟨[.empty], 0⟩⟩).run options
      [.add ⟨[1], by decide⟩ ⟨[7], by decide⟩ ⟨0, 0, 0⟩,
        .add ⟨[2], by decide⟩ ⟨[8], by decide⟩ ⟨0, 0, 0⟩]).1
    ¬ StopsWhenFreed options s.table 6 0 := by
  intro platform options s h
  have hfreed := h 0 (by decide) [⟨0, [1, 0, 5, 0, 0, 0, 1, 0, 0, 0, 0, 7]⟩]
    ⟨1, [1, 0, 5, 0, 0, 0, 2, 0, 0, 0, 0, 8]⟩ [] (by decide +kernel) (by decide +kernel)
  exact absurd hfreed (by decide +kernel)

/-- The same chain, when both records are needed. -/
theorem stopsWhenFreed_iff_noExcess_of_two :
    let platform : Platform := ⟨fun _ => (0, 0), 8, 64⟩
    let options : Options := ⟨250, 100, false⟩
    let s := ((Session.create {} ⟨0, []⟩ ⟨0, ⟨0, 0, [0], by decide⟩, ⟨[.empty], 0⟩⟩).run options
      [.add ⟨[1], by decide⟩ ⟨[7], by decide⟩ ⟨0, 0, 0⟩,
        .add ⟨[2], by decide⟩ ⟨[8], by decide⟩ ⟨0, 0, 0⟩]).1
    StopsWhenFreed options s.table 12 0 ↔ NoExcess options s.table 12 0 := by
  intro platform options s
  exact stopsWhenFreed_iff_noExcess

end L4.Cache
