import Mathlib.Algebra.BigOperators.Fin
import Mathlib.Data.Finset.Lattice.Fold
import Mathlib.Order.Lattice.Nat
import Mathlib.Tactic.Ring
import L4.ReadWriteOperations

namespace L4
set_option autoImplicit true

namespace SharedHashTable
variable {setting : Setting}

/-- A quantity summed over the stored records. -/
def total (f : RecordBuffer → Int) (t : SharedHashTable setting) : Int := (t.records.map f).sum

/-- The number of entries that are chained to the heads of the buckets. -/
def chainingEntries (t : SharedHashTable setting) : Int :=
  ∑ i : setting.BucketIndex, ((t.buckets[i].chainLength : Int) - 1)

def longestChain (t : SharedHashTable setting) : Nat :=
  Finset.univ.sup fun i : setting.BucketIndex => t.buckets[i].chainLength

theorem Stored.total {t t' : SharedHashTable setting} (h : Stored t s data newTag t')
    (f : RecordBuffer → Int) : t'.total f = t.total f - (t.load s).elim 0 f + data.elim 0 f := by
  obtain ⟨before, after, hrecords, hrecords'⟩ := h.records
  have hsum (o : Option RecordBuffer) : (o.toList.map f).sum = o.elim 0 f := by
    cases o <;> simp
  simp only [SharedHashTable.total, hrecords, hrecords', List.map_append, List.sum_append, hsum]
  omega

section Expected
variable [Platform] (rs : RecordSerializer)

omit [Platform] in
/-- What one record counts for. -/
def recordWeight (r : RecordBuffer) : HashTablePerfCounter → Int
  | .recordsCount => 1
  | .totalKeySize => (rs.keyOf r).size
  | .totalValueSize => (rs.valueOf r).size
  | .totalIndexSize => rs.calculateRecordOverhead
  | _ => 0

omit [Platform] in
/-- What one chained entry counts for. -/
def entryWeight : HashTablePerfCounter → Int
  | .chainingEntriesCount => 1
  | .totalIndexSize => sizeofEntry
  | _ => 0

def emptyContents (setting : Setting) : HashTablePerfCounter → Int
  | .totalIndexSize => initialIndexSize setting
  | _ => 0

/-- What the counters that describe the contents of a table are meant to be. -/
def contents (t : SharedHashTable setting) (counter : HashTablePerfCounter) : Int :=
  emptyContents setting counter + t.total (recordWeight rs · counter) +
    t.chainingEntries * entryWeight counter

end Expected

theorem longestChain_pos (t : SharedHashTable setting) (hb : setting.numBuckets ≠ 0) :
    0 < t.longestChain := by
  have h0 : 0 < setting.numBuckets.toNat :=
    Nat.pos_of_ne_zero fun h0 => hb (UInt32.toNat_inj.mp h0)
  exact Nat.lt_of_lt_of_le t.buckets[(⟨0, h0⟩ : setting.BucketIndex)].chainLength_pos
    (Finset.le_sup (f := fun i : setting.BucketIndex => t.buckets[i].chainLength)
      (Finset.mem_univ _))

theorem le_longestChain (t : SharedHashTable setting) (i : setting.BucketIndex) :
    t.buckets[i].chainLength ≤ t.longestChain :=
  Finset.le_sup (f := fun i : setting.BucketIndex => t.buckets[i].chainLength) (Finset.mem_univ i)

theorem Stored.chainLengths {t t' : SharedHashTable setting} (h : Stored t s data newTag t') :
    (fun j : setting.BucketIndex => t'.buckets[j].chainLength) =
      Function.update (fun j => t.buckets[j].chainLength) s.1 t'.buckets[s.1].chainLength := by
  funext j
  rw [Function.update_apply]
  split_ifs with hj
  · rw [hj]
  · rw [h.other j hj]

theorem Stored.chainingEntries {t t' : SharedHashTable setting} (h : Stored t s data newTag t') :
    t'.chainingEntries =
      t.chainingEntries + (t'.buckets[s.1].chainLength - t.buckets[s.1].chainLength) := by
  have hsum := Finset.sum_update_of_mem (Finset.mem_univ s.1)
    (fun j : setting.BucketIndex => ((t.buckets[j].chainLength : Int) - 1))
    (t'.buckets[s.1].chainLength - 1)
  have hrest := Finset.add_sum_erase Finset.univ
    (fun j : setting.BucketIndex => ((t.buckets[j].chainLength : Int) - 1)) (Finset.mem_univ s.1)
  have heq : (fun j : setting.BucketIndex => ((t'.buckets[j].chainLength : Int) - 1)) =
      Function.update (fun j => (t.buckets[j].chainLength : Int) - 1) s.1
        (t'.buckets[s.1].chainLength - 1) := by
    funext j
    have hj := congrFun h.chainLengths j
    simp only [Function.update_apply] at hj ⊢
    rw [hj]
    split_ifs <;> rfl
  rw [SharedHashTable.chainingEntries, heq, hsum, SharedHashTable.chainingEntries, ← hrest,
    Finset.sdiff_singleton_eq_erase]
  omega

theorem Stored.longestChain {t t' : SharedHashTable setting} (h : Stored t s data newTag t') :
    t'.longestChain = max t.longestChain t'.buckets[s.1].chainLength := by
  apply Nat.le_antisymm
  · refine Finset.sup_le fun j _ => ?_
    by_cases hj : j = s.1
    · rw [hj]
      exact Nat.le_max_right _ _
    · rw [h.other j hj]
      exact Nat.le_trans (t.le_longestChain j) (Nat.le_max_left _ _)
  · refine Nat.max_le.mpr ⟨Finset.sup_le fun j _ => ?_, t'.le_longestChain s.1⟩
    refine Nat.le_trans ?_ (t'.le_longestChain j)
    by_cases hj : j = s.1
    · rw [hj]
      exact h.chainLength_le
    · rw [h.other j hj]

section Create
variable [Platform] (setting : Setting) (allocator : Allocator)

theorem buckets_create (i : setting.BucketIndex) :
    (create setting allocator).buckets[i] = .empty := by
  simp [create]

theorem records_create : (create setting allocator).records = [] := by
  rw [List.eq_nil_iff_forall_not_mem]
  intro r hr
  obtain ⟨s, hs⟩ := mem_records.mp hr
  rw [load_create] at hs
  cases hs

theorem longestChain_create (hb : setting.numBuckets ≠ 0) :
    (create setting allocator).longestChain = 1 := by
  refine Nat.le_antisymm (Finset.sup_le fun i _ => ?_) (longestChain_pos _ hb)
  rw [buckets_create]
  exact Nat.le_refl _

theorem contents_create (rs : RecordSerializer) (counter : HashTablePerfCounter) :
    (create setting allocator).contents rs counter = emptyContents setting counter := by
  have hentries : (create setting allocator).chainingEntries = 0 := by
    refine Finset.sum_eq_zero fun i _ => ?_
    rw [buckets_create]
    rfl
  rw [contents, total, records_create, hentries, Int.zero_mul, Int.add_zero]
  exact Int.add_zero _

end Create

end SharedHashTable

namespace ReadWrite
open SharedHashTable
variable [Platform] {setting : Setting} {rs : RecordSerializer} {t t' : SharedHashTable setting}

/-- The counters that `contents` describes. -/
def Counted (counter : HashTablePerfCounter) : Prop :=
  counter ∈ [.recordsCount, .totalKeySize, .totalValueSize, .totalIndexSize, .chainingEntriesCount]

theorem Published.contents (hp : Published rs t record s stat old t')
    (counter : HashTablePerfCounter) :
    contents rs t' counter = contents rs t counter + recordWeight rs record counter -
      (t.load s).elim 0 (recordWeight rs · counter) +
        if stat.isNewEntryAdded then entryWeight counter else 0 := by
  have htotal := hp.stored.total (recordWeight rs · counter)
  have hchain := hp.stored.chainingEntries
  rw [hp.chainLength] at hchain
  simp only [SharedHashTable.contents, htotal, hchain, hp.isNewEntryAdded, decide_eq_true_eq,
    Option.elim_some]
  split_ifs
  · simp only [Nat.cast_add, Nat.cast_one]
    ring
  · simp only [Nat.add_zero]
    ring

theorem Unlinked.contents (hu : Unlinked t s (some record) t') (rs : RecordSerializer)
    (counter : HashTablePerfCounter) :
    contents rs t' counter = contents rs t counter - recordWeight rs record counter := by
  have htotal := hu.stored.total (recordWeight rs · counter)
  have hchain := hu.stored.chainingEntries
  rw [hu.chainLength] at hchain
  rw [← hu.removed] at htotal
  simp only [SharedHashTable.contents, htotal, hchain, Option.elim_some, Option.elim_none]
  ring

theorem perfData_create (allocator : Allocator) (hc : Counted counter) :
    (create setting allocator).perfData counter = emptyContents setting counter := by
  simp only [Counted, List.mem_cons, List.not_mem_nil, or_false] at hc
  rcases hc with rfl | rfl | rfl | rfl | rfl <;> rfl

omit [Platform] in
theorem updatePerfDataForAdd_adds (rs : RecordSerializer) (hc : Counted counter) (stat : Stat) :
    ∀ u ∈ updatePerfDataForAdd rs stat, u.Adds counter := by
  simp only [Counted, List.mem_cons, List.not_mem_nil, or_false] at hc
  simp only [updatePerfDataForAdd]
  rcases hc with rfl | rfl | rfl | rfl | rfl <;>
    split_ifs <;> simp [PerfUpdate.Adds, PerfUpdate.increment]

omit [Platform] in
theorem perfUpdatesForRemoved_adds (rs : RecordSerializer) (counter : HashTablePerfCounter)
    (record : RecordBuffer) :
    ∀ u ∈ perfUpdatesForRemoved rs record, u.Adds counter := by
  simp [perfUpdatesForRemoved, updatePerfDataForRemove, PerfUpdate.Adds, PerfUpdate.decrement,
    PerfUpdate.subtract]

omit [Platform] in
theorem perfUpdatesForRemoved_delta (rs : RecordSerializer) (counter : HashTablePerfCounter)
    (record : RecordBuffer) :
    ((perfUpdatesForRemoved rs record).map (PerfUpdate.delta counter)).sum =
      -recordWeight rs record counter := by
  cases counter <;>
    simp [perfUpdatesForRemoved, updatePerfDataForRemove, PerfUpdate.delta, PerfUpdate.decrement,
      PerfUpdate.subtract, recordWeight]

/-- The new record replaces one with an empty value. -/
def ReplacesEmpty (rs : RecordSerializer) (old : Option RecordBuffer) : Prop :=
  ∃ r, old = some r ∧ (rs.valueOf r).size = 0

theorem Published.delta (hp : Published rs t record s stat old t') (hc : Counted counter)
    (hold : ¬ ReplacesEmpty rs (t.load s)) :
    ((updatePerfDataForAdd rs stat).map (PerfUpdate.delta counter)).sum =
      recordWeight rs record counter - (t.load s).elim 0 (recordWeight rs · counter) +
        if stat.isNewEntryAdded then entryWeight counter else 0 := by
  simp only [Counted, List.mem_cons, List.not_mem_nil, or_false] at hc
  have hsize := hp.oldValueSize
  cases hs : t.load s with
  | none =>
    rw [hs] at hsize
    simp only [updatePerfDataForAdd, show stat.oldValueSize = 0 from hsize, hp.keySize,
      hp.valueSize]
    rcases hc with rfl | rfl | rfl | rfl | rfl <;>
      cases hnew : stat.isNewEntryAdded <;> split_ifs <;>
      simp [PerfUpdate.delta, PerfUpdate.increment, recordWeight, entryWeight] at *
  | some r =>
    rw [hs] at hsize hold
    have hne : stat.oldValueSize ≠ 0 := fun h0 => hold ⟨r, rfl, hsize.symm.trans h0⟩
    have hkey : rs.keyOf r = rs.keyOf record := hp.admits.1 r hs
    have hnew : stat.isNewEntryAdded = false := by
      rw [hp.isNewEntryAdded]
      exact decide_eq_false (Nat.ne_of_lt
        (Bucket.mem_positions.mp (Bucket.mem_positions_of_load hs)))
    simp only [updatePerfDataForAdd, if_pos hne, hnew, hp.valueSize, Option.elim_some]
    rcases hc with rfl | rfl | rfl | rfl | rfl <;>
      simp [PerfUpdate.delta, recordWeight, hkey, hsize]

end ReadWrite

end L4
