import L4.TableThreadRuns
import L4.TableThreadSteps

namespace L4
set_option autoImplicit true

namespace Bucket
variable {b b' : Bucket RecordBuffer}

theorem length_positions (b : Bucket Data) :
    b.positions.length = numDataPerEntry * b.chainLength := by
  simp [positions, slotsOf, Nat.mul_comm]

theorem length_records_le (b : Bucket Data) :
    b.records.length ≤ numDataPerEntry * b.chainLength := by
  rw [← length_positions]
  exact List.length_filterMap_le _ _

/-- A chain without a free slot. -/
def Full (b : Bucket Data) : Prop := ∀ p, p.entry < b.chainLength → ∃ d, b.load p = some d

theorem Full.length_records {b : Bucket Data} (h : b.Full) :
    b.records.length = numDataPerEntry * b.chainLength := by
  rw [← length_positions, records, List.length_filterMap_eq_countP, List.countP_eq_length]
  intro p hp
  obtain ⟨d, hd⟩ := h p (mem_positions.mp hp)
  rw [hd]
  rfl

end Bucket

/-- The entries that a number of records needs, at least one. -/
def entriesFor (records : Nat) : Nat :=
  max 1 ((records + (numDataPerEntry - 1)) / numDataPerEntry)

theorem entriesFor_of_le (h : entriesFor records = n) (hle : records ≤ records')
    (hfit : records' ≤ numDataPerEntry * n) : entriesFor records' = n := by
  simp only [entriesFor, numDataPerEntry] at h hfit ⊢
  omega

theorem le_of_entriesFor (h : entriesFor records = n) : records ≤ numDataPerEntry * n := by
  simp only [entriesFor, numDataPerEntry] at h ⊢
  omega

theorem entriesFor_succ (hn : 0 < n) : entriesFor (numDataPerEntry * n + 1) = n + 1 := by
  simp only [entriesFor, numDataPerEntry]
  omega

namespace TableThreads
open Transition (Run WithPeak)
open Cache (Sound touched_setBucket)
variable {config : HashTableConfig}

/-- The number of records in a bucket. -/
def recordsIn (p : System config) (i : config.setting.BucketIndex) : Nat :=
  p.shared.hashTable.buckets[i].records.length

/-- What a step does to the chain of a bucket: it keeps its entries, or it publishes a record of a
new key in an entry that it links after a full chain. -/
inductive Grown (label : Label config.setting) (i : config.setting.BucketIndex)
    (b b' : Bucket RecordBuffer) : Prop
  | kept (hlength : b'.chainLength = b.chainLength)
  | appended (p : SlotIndex) (r : RecordBuffer) (hlabel : label = .publish (i, p) r none)
      (hfull : b.Full) (hlength : b'.chainLength = b.chainLength + 1)
      (hrecords : b'.records.length = b.records.length + 1)

section Grown
variable [Platform] {rs : RecordSerializer} {t t' : SharedHashTable config.setting}
  {label : Label config.setting}

omit [Platform] in
theorem grown_of_stored (h : t.Stored s data newTag t')
    (hlength : t'.buckets[s.1].chainLength = t.buckets[s.1].chainLength)
    (label : Label config.setting) (i : config.setting.BucketIndex) :
    Grown label i t.buckets[i] t'.buckets[i] := by
  by_cases hi : i = s.1
  · rw [hi]
    exact .kept hlength
  · rw [h.other i hi]
    exact .kept rfl

omit [Platform] in
theorem grown_of_buckets (h : t'.buckets = t.buckets) (label : Label config.setting)
    (i : config.setting.BucketIndex) : Grown label i t.buckets[i] t'.buckets[i] := by
  rw [h]
  exact .kept rfl

/-- `Add` links an entry only after a chain in which every slot is occupied. -/
theorem grown_of_published (h : ReadWrite.Published rs t record s stat old t')
    (i : config.setting.BucketIndex) :
    Grown (.publish s record old) i t.buckets[i] t'.buckets[i] := by
  by_cases hnew : s.2.entry = t.buckets[s.1].chainLength
  · obtain ⟨j, p⟩ := s
    have hnone : t.buckets[j].load p = none := Bucket.load_eq_none_of_le (Nat.le_of_eq hnew.symm)
    by_cases hi : i = j
    · subst hi
      have hfull : t.buckets[i].Full := fun q hq => h.first hnone q (.inl (hnew ▸ hq))
      have hload : t'.buckets[i].load =
          Function.update t.buckets[i].load p (some record) := by
        funext q
        have hq := congrFun h.stored.load (i, q)
        simp only [Function.update_apply, Prod.mk.injEq, true_and] at hq ⊢
        exact hq
      obtain ⟨before, after, -, -, hrecords, hrecords'⟩ :=
        Bucket.records_update h.stored.entry_lt h.stored.chainLength_le hload
      have hold : old = none := h.replaced.trans hnone
      refine .appended p record (by rw [hold]) hfull ?_ ?_
      · rw [h.chainLength, if_pos hnew]
      · rw [hrecords', hrecords, hnone]
        simp only [Option.toList_some, Option.toList_none, List.length_append,
          List.length_singleton, List.length_nil]
        omega
    · rw [h.stored.other i hi]
      exact .kept rfl
  · have hlength := h.chainLength
    rw [if_neg hnew] at hlength
    exact grown_of_stored h.stored hlength _ i

end Grown

section Acts
variable [Platform] {others : List (Thread config.setting)} {t t' : Table config}
  {th th' : Thread config.setting} {label : Label config.setting}

theorem Act.grown (h : Act config others t th label t' th')
    (hs : t.hashTable.Consistent config.recordSerializer) (i : config.setting.BucketIndex) :
    Grown label i t.hashTable.buckets[i] t'.hashTable.buckets[i] := by
  cases h with
  | visitStays hcache hload hvisit =>
    exact grown_of_stored (touched_setBucket hload _).stored (touched_setBucket hload _).chainLength
      _ i
  | visitRemoves hcache hload hvisit =>
    have hu := ReadWrite.unlinked_of_load hload
    exact grown_of_stored hu.stored hu.chainLength _ i
  | createRecordBuffer curEpochTime hcreate =>
    obtain ⟨allocator, rfl, -⟩ := createRecordBuffer_allocates hcreate
    exact grown_of_buckets rfl _ i
  | createRecordBufferThrows curEpochTime hcreate =>
    obtain ⟨allocator, rfl, -⟩ := createRecordBuffer_allocates hcreate
    exact grown_of_buckets rfl _ i
  | add hinfo hlock hslot hpublish =>
    exact grown_of_published (published_of_scan hs hinfo hslot hpublish) i
  | remove hinfo hlock hfind =>
    have hload : t.hashTable.load (_, _) = some _ := (Bucket.find?_some hfind).1
    have hu := ReadWrite.unlinked_of_load hload
    exact grown_of_stored hu.stored hu.chainLength _ i
  | touch s r =>
    change Grown _ i _
      (TableThreads.touch t.hashTable config.recordSerializer s r.address).buckets[i]
    rcases touch_cases t.hashTable config.recordSerializer s r.address with
      heq | ⟨record, hload, heq⟩
    · rw [heq]
      exact .kept rfl
    · rw [heq]
      exact grown_of_stored (touched_setBucket hload _).stored
        (touched_setBucket hload _).chainLength _ i
  | _ => exact .kept rfl

theorem Step.grown {p p' : System config} (h : Step config p label p')
    (hs : p.shared.hashTable.Consistent config.recordSerializer) (i : config.setting.BucketIndex) :
    Grown label i p.shared.hashTable.buckets[i] p'.shared.hashTable.buckets[i] := by
  cases h with
  | intro before after hact => exact hact.grown hs i

/-- Every chain has the entries that the peak of its records needs. -/
structure ChainsFit (s : System config × (config.setting.BucketIndex → Nat)) : Prop where
  consistent : s.1.shared.hashTable.Consistent config.recordSerializer
  fits : ∀ i : config.setting.BucketIndex,
    entriesFor (s.2 i) = s.1.shared.hashTable.buckets[i].chainLength

theorem ChainsFit.step {s s' : System config × (config.setting.BucketIndex → Nat)}
    (h : ChainsFit s) (hs : WithPeak recordsIn (Step config) s label s') : ChainsFit s' := by
  obtain ⟨hstep, hpeak⟩ := hs
  refine ⟨hstep.consistent h.consistent, fun i => ?_⟩
  rw [hpeak]
  have hfits := h.fits i
  have hle' : recordsIn s'.1 i ≤ _ := s'.1.shared.hashTable.buckets[i].length_records_le
  cases hstep.grown h.consistent i with
  | kept hlength =>
    rw [hlength] at hle' ⊢
    exact entriesFor_of_le hfits (Nat.le_max_left _ _)
      (Nat.max_le.mpr ⟨le_of_entriesFor hfits, hle'⟩)
  | appended p r hlabel hfull hlength hrecords =>
    rw [hlength]
    have hle := le_of_entriesFor hfits
    have hrecords' : recordsIn s'.1 i = _ := hrecords
    rw [hrecords', hfull.length_records, Nat.max_eq_right (Nat.le_succ_of_le hle)]
    exact entriesFor_succ (Bucket.chainLength_pos _)

theorem chainsFit_initial (config : HashTableConfig) (allocator : Allocator) (numThreads : Nat) :
    ChainsFit (initial config allocator numThreads,
      recordsIn (initial config allocator numThreads)) where
  consistent := SharedHashTable.consistent_create _ _
  fits i := by
    have hbucket := SharedHashTable.buckets_create config.setting allocator i
    change entriesFor
        ((SharedHashTable.create config.setting allocator).buckets[i].records).length =
      (SharedHashTable.create config.setting allocator).buckets[i].chainLength
    rw [hbucket]
    decide

/-- In every run of a table and its threads, the chain of every bucket has the entries that its
largest number of records so far needs, and a step links an entry only for a record of a new key
and only after a chain without a free slot. -/
theorem chainLength_of_peak (config : HashTableConfig) (allocator : Allocator) (numThreads : Nat)
    (labels : List (Label config.setting)) (p : System config)
    (peak : config.setting.BucketIndex → Nat)
    (h : Run (WithPeak recordsIn (Step config))
      (initial config allocator numThreads, recordsIn (initial config allocator numThreads)) labels
      (p, peak)) (i : config.setting.BucketIndex) :
    p.shared.hashTable.buckets[i].chainLength =
        max 1 ((peak i + (numDataPerEntry - 1)) / numDataPerEntry) ∧
      ∀ label p', Step config p label p' →
        Grown label i p.shared.hashTable.buckets[i] p'.shared.hashTable.buckets[i] := by
  have hfit : ChainsFit (p, peak) :=
    h.invariant (fun _ _ _ h hs => h.step hs) (chainsFit_initial config allocator numThreads)
  exact ⟨(hfit.fits i).symm, fun label p' hs => hs.grown hfit.consistent i⟩

omit [Platform] in
/-- One record more than an entry has slots for, and one of them removed again. -/
theorem chainLength_of_peak_of_add :
    let platform : Platform := ⟨fun _ => (7, 0), 8, 64⟩
    let config : HashTableConfig := ⟨{}, none⟩
    let bucket : config.setting.BucketIndex := ⟨0, by decide⟩
    ∃ labels p peak, Run (WithPeak recordsIn (Step config))
        (initial config ⟨0, []⟩ 1, recordsIn (initial config ⟨0, []⟩ 1)) labels (p, peak) ∧
      recordsIn p bucket = 16 ∧ p.shared.hashTable.buckets[bucket].chainLength = 2 ∧
      p.shared.hashTable.buckets[bucket].chainLength =
        max 1 ((peak bucket + (numDataPerEntry - 1)) / numDataPerEntry) := by
  intro platform config bucket
  let calls : List ReadWrite.Call := ((List.finRange 17).map fun i =>
    .add ⟨[UInt8.ofNat i], by simp⟩ ⟨[], by decide⟩) ++ [.remove ⟨[3], by decide⟩]
  let t := ReadWrite.WritableHashTable.create config.setting ⟨0, []⟩
    ⟨0, ⟨0, 0, [0], by decide⟩, ⟨[.empty], 0⟩⟩
  have halone (calls : List ReadWrite.Call) : ∃ labels p,
      Run (Step config) (initial config ⟨0, []⟩ 1) labels p ∧
        p.shared.hashTable = (t.run calls).1.hashTable := by
    obtain ⟨labels, hrun⟩ := run_calls [] [] (t := t) (SharedHashTable.consistent_create _ _)
      (by decide) (by simp [Unlocked]) 0 calls
    exact ⟨labels, _, hrun, rfl⟩
  obtain ⟨labels, p, hrun, hp⟩ := halone calls
  obtain ⟨peak, hpeak⟩ := hrun.withPeak recordsIn (recordsIn (initial config ⟨0, []⟩ 1))
  have hlength := (chainLength_of_peak config ⟨0, []⟩ 1 _ _ peak hpeak bucket).1
  refine ⟨labels, p, peak, hpeak, ?_, ?_, hlength⟩
  · rw [recordsIn, hp]
    decide +kernel
  · rw [hp]
    decide +kernel

end Acts

end TableThreads

end L4
