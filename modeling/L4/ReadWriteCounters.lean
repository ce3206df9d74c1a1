import L4.Contents
import L4.ReadWriteRefinement

namespace L4
set_option autoImplicit true

namespace ReadWrite
open SharedHashTable (bucketOf initialIndexSize)
variable [Platform] {setting : Setting}

/-- The counters describe the contents of the table. -/
structure CountersExact (rs : RecordSerializer) (t : SharedHashTable setting) : Prop where
  recordsCount : t.perfData .recordsCount = t.records.length
  totalKeySize : t.perfData .totalKeySize = t.total fun r => (rs.keyOf r).size
  totalValueSize : t.perfData .totalValueSize = t.total fun r => (rs.valueOf r).size
  chainingEntriesCount : t.perfData .chainingEntriesCount = t.chainingEntries
  maxBucketChainLength : t.perfData .maxBucketChainLength = t.longestChain
  totalIndexSize : t.perfData .totalIndexSize = initialIndexSize setting +
    rs.calculateRecordOverhead * t.records.length + sizeofEntry * t.chainingEntries

/-- A call after which the counters still describe the contents: an `Add` that does not overwrite
an empty value and does not link an entry beyond the range of the chain index. -/
def KeepsCounters (t : SharedHashTable setting) : Call → Prop
  | .add key _ =>
    (∀ value, get setting.recordSerializer t key = .ok (some value) → value.size ≠ 0) ∧
      ∀ i : setting.BucketIndex, i.val = bucketOf setting key →
        get setting.recordSerializer t key = .ok none →
        (∀ p : SlotIndex, p.entry < t.buckets[i].chainLength → t.load (i, p) ≠ none) →
        t.buckets[i].chainLength + 1 < 2 ^ 32
  | _ => True

variable {rs : RecordSerializer} {t t' : SharedHashTable setting}

omit [Platform] in
theorem total_const (t : SharedHashTable setting) (k : Int) :
    t.total (fun _ => k) = t.records.length * k := by
  simp [SharedHashTable.total, List.map_const', List.sum_replicate]

theorem countersExact_iff : CountersExact rs t ↔
    (∀ counter, Counted counter → t.perfData counter = t.contents rs counter) ∧
      t.perfData .maxBucketChainLength = t.longestChain := by
  have hcontents : t.contents rs .recordsCount = t.records.length ∧
      (t.contents rs .totalKeySize = t.total fun r => (rs.keyOf r).size) ∧
      (t.contents rs .totalValueSize = t.total fun r => (rs.valueOf r).size) ∧
      t.contents rs .chainingEntriesCount = t.chainingEntries ∧
      t.contents rs .totalIndexSize = initialIndexSize setting +
        rs.calculateRecordOverhead * t.records.length + sizeofEntry * t.chainingEntries := by
    simp only [SharedHashTable.contents, SharedHashTable.emptyContents,
      SharedHashTable.recordWeight, SharedHashTable.entryWeight, total_const]
    refine ⟨?_, ?_, ?_, ?_, ?_⟩ <;> ring
  obtain ⟨hrecords, hkeys, hvalues, hentries, hindex⟩ := hcontents
  constructor
  · intro h
    refine ⟨fun counter hc => ?_, h.maxBucketChainLength⟩
    simp only [Counted, List.mem_cons, List.not_mem_nil, or_false] at hc
    rcases hc with rfl | rfl | rfl | rfl | rfl
    · exact h.recordsCount.trans hrecords.symm
    · exact h.totalKeySize.trans hkeys.symm
    · exact h.totalValueSize.trans hvalues.symm
    · exact h.totalIndexSize.trans hindex.symm
    · exact h.chainingEntriesCount.trans hentries.symm
  · rintro ⟨h, hmax⟩
    exact ⟨(h _ (by simp [Counted])).trans hrecords, (h _ (by simp [Counted])).trans hkeys,
      (h _ (by simp [Counted])).trans hvalues, (h _ (by simp [Counted])).trans hentries, hmax,
      (h _ (by simp [Counted])).trans hindex⟩

omit [Platform] in
theorem updatePerfDataForAdd_max (perfData : HashTablePerfData) (stat : Stat) :
    PerfUpdate.applyAll perfData (updatePerfDataForAdd rs stat) .maxBucketChainLength =
      if stat.oldValueSize = 0 ∧ stat.isNewEntryAdded ∧ 1 < stat.chainIndex then
        max (perfData .maxBucketChainLength) stat.chainIndex.toNat
      else perfData .maxBucketChainLength := by
  by_cases h0 : stat.oldValueSize = 0
  · by_cases hnew : stat.isNewEntryAdded = true
    · by_cases hchain : 1 < stat.chainIndex
      · simp [updatePerfDataForAdd, PerfUpdate.applyAll, PerfUpdate.apply, PerfUpdate.increment,
          h0, hnew, hchain]
      · simp [updatePerfDataForAdd, PerfUpdate.applyAll, PerfUpdate.apply, PerfUpdate.increment,
          h0, hnew, hchain]
    · simp [updatePerfDataForAdd, PerfUpdate.applyAll, PerfUpdate.apply, PerfUpdate.increment,
        h0, hnew]
  · simp [updatePerfDataForAdd, PerfUpdate.applyAll, PerfUpdate.apply, h0]

omit [Platform] in
theorem toNat_chainIndex {stat : Stat} {n : Nat} (h : stat.chainIndex = .ofNat (n + 1))
    (hn : n + 1 < 2 ^ 32) : stat.chainIndex.toNat = n + 1 := by
  rw [h, UInt32.toNat_ofNat', Nat.mod_eq_of_lt hn]

/-- `Add` keeps the counters when it neither replaces an empty value nor overruns the chain
index. -/
theorem Published.countersExact (hp : Published rs t record s stat old t')
    (he : CountersExact rs t) (hold : ¬ ReplacesEmpty rs (t.load s))
    (hlen : s.2.entry = t.buckets[s.1].chainLength → t.buckets[s.1].chainLength + 1 < 2 ^ 32) :
    CountersExact rs (t'.updatePerfData (updatePerfDataForAdd rs stat)) := by
  rw [countersExact_iff] at he ⊢
  refine ⟨fun counter hc => ?_, ?_⟩
  · have hsum := PerfUpdate.applyAll_of_adds t'.perfData
      (updatePerfDataForAdd_adds rs hc stat)
    rw [hp.stored.perfData, he.1 counter hc, hp.delta hc hold] at hsum
    have hcontents := hp.contents counter
    change PerfUpdate.applyAll t'.perfData _ counter = t'.contents rs counter
    rw [hp.stored.perfData, hsum, hcontents]
    omega
  · change PerfUpdate.applyAll t'.perfData _ .maxBucketChainLength = t'.longestChain
    rw [updatePerfDataForAdd_max, hp.stored.perfData, he.2, hp.stored.longestChain,
      hp.chainLength, hp.isNewEntryAdded]
    have hle := t.le_longestChain s.1
    by_cases hnew : s.2.entry = t.buckets[s.1].chainLength
    · have hnone := SharedHashTable.load_eq_none_of_le (Nat.le_of_eq hnew.symm)
      have hindex := toNat_chainIndex (hp.chainIndex hnew) (hlen hnew)
      have hpos := t.buckets[s.1].chainLength_pos
      have hone : 1 < stat.chainIndex := by
        rw [UInt32.lt_iff_toNat_lt, hindex]
        exact Nat.succ_lt_succ hpos
      rw [if_pos ⟨by rw [hp.oldValueSize, hnone]; rfl, decide_eq_true hnew, hone⟩, if_pos hnew,
        hindex]
      omega
    · rw [if_neg fun h => hnew (of_decide_eq_true h.2.1), if_neg hnew]
      omega

theorem Published.of_countersExact (hp : Published rs t record s stat old t')
    (he : CountersExact rs t) (hmax : t.perfData .maxBucketChainLength < 2 ^ 32)
    (he' : CountersExact rs (t'.updatePerfData (updatePerfDataForAdd rs stat))) :
    ¬ ReplacesEmpty rs (t.load s) ∧
      (s.2.entry = t.buckets[s.1].chainLength → t.buckets[s.1].chainLength + 1 < 2 ^ 32) := by
  rw [countersExact_iff] at he he'
  constructor
  · rintro ⟨r, hs, hsize⟩
    have hzero : stat.oldValueSize = 0 := by
      rw [hp.oldValueSize, hs]
      exact hsize
    have hc : Counted .recordsCount := by simp [Counted]
    have hsum := PerfUpdate.applyAll_of_adds t'.perfData
      (updatePerfDataForAdd_adds rs hc stat)
    have hone : ((updatePerfDataForAdd rs stat).map (PerfUpdate.delta .recordsCount)).sum = 1 := by
      simp only [updatePerfDataForAdd, hzero]
      split_ifs <;> simp [PerfUpdate.delta, PerfUpdate.increment] at *
    have hcontents := hp.contents .recordsCount
    have hafter : PerfUpdate.applyAll t'.perfData _ .recordsCount = t'.contents rs .recordsCount :=
      he'.1 _ hc
    simp only [hs, Option.elim_some, SharedHashTable.recordWeight, SharedHashTable.entryWeight,
      ite_self] at hcontents
    rw [hsum, hone, hp.stored.perfData, he.1 _ hc, hcontents] at hafter
    omega
  · intro hnew
    have hafter : PerfUpdate.applyAll t'.perfData _ .maxBucketChainLength = t'.longestChain := he'.2
    have hle := t'.le_longestChain s.1
    rw [hp.chainLength, if_pos hnew] at hle
    rw [updatePerfDataForAdd_max, hp.stored.perfData] at hafter
    have hindex := stat.chainIndex.toNat_lt
    split_ifs at hafter <;> omega

theorem Published.map_eq (hp : Published rs t record s stat old t') (h : Refines rs t m) :
    m (rs.keyOf record) = (t.load s).map rs.valueOf := by
  cases hs : t.load s with
  | none =>
    refine h.map_eq_none.mpr fun q r hq hk => ?_
    rw [hp.admits.2 q r hq hk, hs] at hq
    cases hq
  | some r => exact h.map_eq_some.mpr ⟨s, r, hs, hp.admits.1 r hs, rfl⟩

theorem Published.newEntry_iff (hp : Published rs t record s stat old t') (h : Refines rs t m) :
    s.2.entry = t.buckets[s.1].chainLength ↔ m (rs.keyOf record) = none ∧
      ∀ p : SlotIndex, p.entry < t.buckets[s.1].chainLength → t.load (s.1, p) ≠ none := by
  rw [hp.map_eq h, Option.map_eq_none_iff]
  constructor
  · intro hnew
    have hnone := SharedHashTable.load_eq_none_of_le (Nat.le_of_eq hnew.symm)
    refine ⟨hnone, fun p hlt => ?_⟩
    obtain ⟨r, hr⟩ := hp.first hnone p (.inl (hnew ▸ hlt))
    rw [hr]
    exact Option.some_ne_none r
  · rintro ⟨hnone, hfull⟩
    by_contra hne
    have hlt := hp.stored.entry_lt
    rw [hp.chainLength, if_neg hne] at hlt
    exact hfull s.2 hlt hnone

theorem Published.keepsCounters_iff
    (hp : Published setting.recordSerializer t record s stat old t')
    (h : Refines setting.recordSerializer t m) (hb : setting.numBuckets ≠ 0) (value : Value) :
    KeepsCounters t (.add (setting.recordSerializer.keyOf record) value) ↔
      ¬ ReplacesEmpty setting.recordSerializer (t.load s) ∧
        (s.2.entry = t.buckets[s.1].chainLength → t.buckets[s.1].chainLength + 1 < 2 ^ 32) := by
  simp only [KeepsCounters, h.get_eq hb, Except.ok.injEq]
  refine and_congr ?_ ?_
  · rw [hp.map_eq h]
    constructor
    · rintro hv ⟨r, hs, hsize⟩
      exact hv _ (by rw [hs]; rfl) hsize
    · intro hold value hv hsize
      obtain ⟨r, hs, rfl⟩ := Option.map_eq_some_iff.mp hv
      exact hold ⟨r, hs, hsize⟩
  · rw [hp.newEntry_iff h]
    constructor
    · exact fun hkeep hnew => hkeep s.1 hp.home hnew.1 hnew.2
    · intro hkeep i hi hnone hfull
      obtain rfl : i = s.1 := Fin.ext (hi.trans hp.home.symm)
      exact hkeep ⟨hnone, hfull⟩

theorem Unlinked.countersExact (hu : Unlinked t s (some record) t') (he : CountersExact rs t) :
    CountersExact rs (t'.updatePerfData (perfUpdatesForRemoved rs record)) := by
  rw [countersExact_iff] at he ⊢
  refine ⟨fun counter hc => ?_, ?_⟩
  · have hsum := PerfUpdate.applyAll_of_adds t'.perfData
      (perfUpdatesForRemoved_adds rs counter record)
    have hcontents := hu.contents rs counter
    change PerfUpdate.applyAll t'.perfData _ counter = t'.contents rs counter
    rw [hsum, perfUpdatesForRemoved_delta, hu.stored.perfData, he.1 counter hc, hcontents]
    omega
  · have hlen := hu.chainLength
    have hle := t.le_longestChain s.1
    change PerfUpdate.applyAll t'.perfData _ .maxBucketChainLength = t'.longestChain
    rw [hu.stored.longestChain, hlen, Nat.max_eq_left hle, ← he.2, ← hu.stored.perfData]
    simp [perfUpdatesForRemoved, updatePerfDataForRemove, PerfUpdate.applyAll, PerfUpdate.apply,
      PerfUpdate.decrement, PerfUpdate.subtract]

theorem countersExact_create (rs : RecordSerializer) (hb : setting.numBuckets ≠ 0)
    (allocator : Allocator) : CountersExact rs (.create setting allocator) := by
  rw [countersExact_iff]
  refine ⟨fun counter hc => ?_, ?_⟩
  · rw [perfData_create allocator hc, SharedHashTable.contents_create]
  · rw [SharedHashTable.longestChain_create setting allocator hb]
    rfl

theorem Effect.maxBucketChainLength (he : Effect rs t c response t')
    (hmax : t.perfData .maxBucketChainLength < 2 ^ 32) :
    t'.perfData .maxBucketChainLength < 2 ^ 32 := by
  cases he with
  | added key value allocator record s stat t' hrecord hp =>
    change PerfUpdate.applyAll t'.perfData _ .maxBucketChainLength < _
    have hindex := stat.chainIndex.toNat_lt
    have hperf : t'.perfData = t.perfData := hp.stored.perfData
    rw [updatePerfDataForAdd_max, hperf]
    split_ifs <;> omega
  | removed record s t' hs hu =>
    change PerfUpdate.applyAll t'.perfData _ .maxBucketChainLength < _
    rw [PerfUpdate.applyAll_of_adds _ (perfUpdatesForRemoved_adds _ _ record), hu.stored.perfData]
    simpa [perfUpdatesForRemoved, updatePerfDataForRemove, PerfUpdate.delta, PerfUpdate.decrement,
      PerfUpdate.subtract] using hmax
  | missed => exact hmax
  | got => exact hmax

theorem Effect.countersExact_iff
    (he : Effect setting.recordSerializer t c response t')
    (h : Refines setting.recordSerializer t m) (hb : setting.numBuckets ≠ 0)
    (hexact : CountersExact setting.recordSerializer t)
    (hmax : t.perfData .maxBucketChainLength < 2 ^ 32) :
    CountersExact setting.recordSerializer t' ↔ KeepsCounters t c := by
  cases he with
  | added key value allocator record s stat t' hrecord hp =>
    have ht : Refines setting.recordSerializer (t.setAllocator allocator) m := h.congr rfl rfl
    have hkey : setting.recordSerializer.keyOf record = key := congrArg Record.key hrecord
    have hexact' : CountersExact setting.recordSerializer (t.setAllocator allocator) :=
      ⟨hexact.1, hexact.2, hexact.3, hexact.4, hexact.5, hexact.6⟩
    have hkeep := hp.keepsCounters_iff ht hb value
    rw [hkey] at hkeep
    constructor
    · exact fun hafter => hkeep.mpr (hp.of_countersExact hexact' hmax hafter)
    · exact fun hk => hp.countersExact hexact' (hkeep.mp hk).1 (hkeep.mp hk).2
  | removed record s t' hs hu => exact iff_of_true (hu.countersExact hexact) trivial
  | missed => exact iff_of_true hexact trivial
  | got => exact iff_of_true hexact trivial

namespace WritableHashTable

theorem run_append (t : WritableHashTable setting (EpochManager RecordBuffer))
    (before after : List Call) :
    (t.run (before ++ after)).1 = ((t.run before).1.run after).1 := by
  induction before generalizing t with
  | nil => rfl
  | cons c before ih => exact ih (t.call c).1

theorem run_take_succ (t : WritableHashTable setting (EpochManager RecordBuffer))
    {calls : List Call} (hc : calls[n]? = some c) :
    (t.run (calls.take (n + 1))).1 = ((t.run (calls.take n)).1.call c).1 := by
  rw [List.take_add_one, hc, run_append]
  rfl

theorem run_maxBucketChainLength (hb : setting.numBuckets ≠ 0)
    {t : WritableHashTable setting (EpochManager RecordBuffer)}
    (h : Refines setting.recordSerializer t.hashTable m)
    (hmax : t.hashTable.perfData .maxBucketChainLength < 2 ^ 32)
    {calls : List Call} (hcalls : ∀ c ∈ calls, c.Accepted setting) :
    (t.run calls).1.hashTable.perfData .maxBucketChainLength < 2 ^ 32 := by
  induction calls generalizing t m with
  | nil => exact hmax
  | cons c cs ih =>
    obtain ⟨response, -, he⟩ := call_effect h.consistent hb (hcalls c (by simp))
    exact ih (he.refines h hb).1 (he.maxBucketChainLength hmax)
      fun c' hc' => hcalls c' (List.mem_cons_of_mem _ hc')

/-- The counters describe the contents after every call of a run precisely when every call of the
run keeps them: no `Add` overwrites an empty value or chains more than `2 ^ 32 - 1` entries. -/
theorem countersExact_iff_keepsCounters (hb : setting.numBuckets ≠ 0) (allocator : Allocator)
    (epochManager : EpochManager RecordBuffer) (calls : List Call)
    (hcalls : ∀ c ∈ calls, c.Accepted setting) :
    (∀ n, CountersExact setting.recordSerializer
      ((create setting allocator epochManager).run (calls.take n)).1.hashTable) ↔
    ∀ n c, calls[n]? = some c →
      KeepsCounters ((create setting allocator epochManager).run (calls.take n)).1.hashTable c := by
  have hreach (n : Nat) := run_refines (t := create setting allocator epochManager)
    (Refines.create _ allocator) hb fun c hc => hcalls c (List.mem_of_mem_take hc (i := n))
  have hmax (n : Nat) := run_maxBucketChainLength hb (t := create setting allocator epochManager)
    (Refines.create _ allocator) (show (1 : Int) < 2 ^ 32 by omega)
    fun c hc => hcalls c (List.mem_of_mem_take hc (i := n))
  have hstep (n : Nat) (c : Call) (hc : calls[n]? = some c)
      (hexact : CountersExact setting.recordSerializer
        ((create setting allocator epochManager).run (calls.take n)).1.hashTable) :
      CountersExact setting.recordSerializer
        ((create setting allocator epochManager).run (calls.take (n + 1))).1.hashTable ↔
      KeepsCounters
        ((create setting allocator epochManager).run (calls.take n)).1.hashTable c := by
    obtain ⟨response, -, he⟩ := call_effect (hreach n).1.consistent hb
      (hcalls c (List.mem_of_getElem? hc))
    rw [run_take_succ _ hc]
    exact he.countersExact_iff (hreach n).1 hb hexact (hmax n)
  constructor
  · exact fun hexact n c hc => (hstep n c hc (hexact n)).mp (hexact (n + 1))
  · intro hkeep n
    induction n with
    | zero => exact countersExact_create _ hb allocator
    | succ n ih =>
      cases hc : calls[n]? with
      | none =>
        have hlen := List.getElem?_eq_none_iff.mp hc
        rw [List.take_of_length_le hlen] at ih
        rw [List.take_of_length_le (Nat.le_succ_of_le hlen)]
        exact ih
      | some c => exact (hstep n c hc ih).mpr (hkeep n c hc)

omit [Platform] in
/-- Overwriting an empty value counts the record again. -/
theorem not_countersExact_of_empty_value :
    let platform : Platform := ⟨fun _ => (7, 0), 8, 64⟩
    let empty : Key := ⟨[], by decide⟩
    ¬ CountersExact (Setting.recordSerializer {})
      ((create {} ⟨0, []⟩ ⟨0, ⟨0, 0, [0], by decide⟩, ⟨[.empty], 0⟩⟩).run
        [.add empty ⟨[], by decide⟩, .add empty ⟨[], by decide⟩]).1.hashTable := by
  intro platform empty h
  exact absurd h.recordsCount (by decide)

omit [Platform] in
/-- The counters stay exact when a record is added, overwritten, removed and looked up. -/
theorem countersExact_of_add_remove :
    let platform : Platform := ⟨fun _ => (7, 0), 8, 64⟩
    let key : Key := ⟨[], by decide⟩
    ∀ n, CountersExact (Setting.recordSerializer {})
      ((create {} ⟨0, []⟩ ⟨0, ⟨0, 0, [0], by decide⟩, ⟨[.empty], 0⟩⟩).run
        (List.take n [.add key ⟨[6], by decide⟩, .add key ⟨[], by decide⟩, .remove key,
          .get key])).1.hashTable := by
  intro platform key
  refine (@countersExact_iff_keepsCounters platform {} (by decide) ⟨0, []⟩ _
    [.add key ⟨[6], by decide⟩, .add key ⟨[], by decide⟩, .remove key, .get key]
    (by decide)).mpr ?_
  rintro (_ | _ | _ | _ | n) c hc
  · obtain rfl := Option.some.inj hc
    have hget := (@Refines.create {} platform (Setting.recordSerializer {}) ⟨0, []⟩).get_eq
      (by decide) key
    refine ⟨fun value hv => ?_, fun i _ _ _ => ?_⟩
    · cases hget.symm.trans hv
    · rw [List.take_zero]
      change (SharedHashTable.create {} ⟨0, []⟩).buckets[i].chainLength + 1 < 2 ^ 32
      rw [SharedHashTable.buckets_create]
      decide
  · obtain rfl := Option.some.inj hc
    have hget : get (Setting.recordSerializer {})
        ((create {} ⟨0, []⟩ ⟨0, ⟨0, 0, [0], by decide⟩, ⟨[.empty], 0⟩⟩).run
          [.add key ⟨[6], by decide⟩]).1.hashTable key = .ok (some ⟨[6], by decide⟩) := by
      decide +kernel
    refine ⟨fun value hv => ?_, fun i _ hnone _ => ?_⟩
    · cases hget.symm.trans hv
      decide
    · cases hget.symm.trans hnone
  · obtain rfl := Option.some.inj hc
    trivial
  · obtain rfl := Option.some.inj hc
    trivial
  · cases hc

end WritableHashTable

end ReadWrite

end L4
