import Mathlib.Data.List.Perm.Basic
import Mathlib.Data.List.Nodup
import L4.SharedHashTable

namespace L4
set_option autoImplicit true

/-- What the destructor of a table gives back to its allocator. A chained entry is named by its
bucket and its place in the chain. -/
inductive Block where
  | record (address : Nat)
  | entry (bucket place : Nat)
deriving DecidableEq

/-- `dataDeleter` for each slot of an entry. -/
def Entry.deleteData (e : Entry RecordBuffer) : List Block :=
  ((List.finRange numDataPerEntry).filterMap fun i => e.dataList[i]).map (.record ·.address)

namespace Bucket

/-- The loop of `Release` over the chained entries. -/
def releaseChained (bucket : Nat) : Nat → List (Entry RecordBuffer) → List Block
  | _, [] => []
  | place, entryToDelete :: rest =>
    entryToDelete.deleteData ++ .entry bucket place :: releaseChained bucket (place + 1) rest

/-- `Release`: the chained entries, and after them the data of the head. -/
def release (bucket : Nat) (b : Bucket RecordBuffer) : List Block :=
  releaseChained bucket 1 b.entries.tail ++ (b.entries.head b.entries_ne).deleteData

theorem filterMap_slotsOf {load : SlotIndex → Option RecordBuffer}
    (entries : List (Entry RecordBuffer))
    (h : ∀ n i, load ⟨first + n, i⟩ = entries[n]?.bind (·.dataList[i])) :
    ((slotsOf first entries.length).filterMap load).map (.record ·.address) =
      entries.flatMap Entry.deleteData := by
  induction entries generalizing first with
  | nil => rfl
  | cons e rest ih =>
    have hload (n : Nat) (i : Fin numDataPerEntry) :
        load ⟨first + 1 + n, i⟩ = rest[n]?.bind (·.dataList[i]) := by
      rw [Nat.add_assoc, Nat.add_comm 1 n]
      exact h (n + 1) i
    have hrest := ih hload
    have hhead : (load ∘ (⟨first, ·⟩) : Fin numDataPerEntry → _) = fun i => e.dataList[i] :=
      funext (h 0)
    rw [List.length_cons, slotsOf_succ, List.filterMap_append, List.map_append, hrest,
      List.filterMap_map, hhead, List.flatMap_cons, Entry.deleteData]

theorem map_records (b : Bucket RecordBuffer) :
    b.records.map (.record ·.address) = b.entries.flatMap Entry.deleteData :=
  filterMap_slotsOf b.entries fun n i => by rw [Nat.zero_add, load]

/-- The chained entries of a bucket. -/
def chained (bucket : Nat) (b : Bucket RecordBuffer) : List Block :=
  (List.range' 1 (b.chainLength - 1)).map (.entry bucket)

theorem releaseChained_perm (bucket place : Nat) (entries : List (Entry RecordBuffer)) :
    (releaseChained bucket place entries).Perm (entries.flatMap Entry.deleteData ++
      (List.range' place entries.length).map (.entry bucket)) := by
  induction entries generalizing place with
  | nil => exact .refl _
  | cons e rest ih =>
    rw [releaseChained, List.flatMap_cons, List.append_assoc, List.length_cons,
      List.range'_succ, List.map_cons]
    exact (((ih (place + 1)).cons _).trans List.perm_middle.symm).append_left _

theorem release_perm (bucket : Nat) (b : Bucket RecordBuffer) :
    (b.release bucket).Perm (b.records.map (.record ·.address) ++ b.chained bucket) := by
  obtain ⟨entries, hne⟩ := b
  cases entries with
  | nil => exact absurd rfl hne
  | cons head rest =>
    have hchained := (releaseChained_perm bucket 1 rest).append_right head.deleteData
    rw [map_records, List.flatMap_cons]
    exact hchained.trans (List.perm_append_comm.trans (.of_eq (List.append_assoc _ _ _).symm))

end Bucket

namespace SharedHashTable
variable {setting : Setting}

/-- The destructor, which releases the buckets one after the other. -/
def destroy (t : SharedHashTable setting) : List Block :=
  (List.finRange setting.numBuckets.toNat).flatMap fun i => t.buckets[i].release i

/-- The chained entries of a table. -/
def chained (t : SharedHashTable setting) : List Block :=
  (List.finRange setting.numBuckets.toNat).flatMap fun i => t.buckets[i].chained i

theorem destroy_perm (t : SharedHashTable setting) :
    t.destroy.Perm (t.records.map (.record ·.address) ++ t.chained) := by
  rw [records, List.map_flatMap, chained]
  refine .trans ?_ (List.flatMap_append_perm _ _ _).symm
  exact List.Perm.flatMap_left _ fun i _ => t.buckets[i].release_perm i

theorem mem_chained {t : SharedHashTable setting} : block ∈ t.chained ↔
    ∃ (i : setting.BucketIndex) (place : Nat), 0 < place ∧ place < t.buckets[i].chainLength ∧
      block = .entry i place := by
  simp only [chained, Bucket.chained, List.mem_flatMap, List.mem_finRange, true_and,
    List.mem_map, List.mem_range'_1]
  constructor
  · rintro ⟨i, place, hplace, rfl⟩
    exact ⟨i, place, by omega, by omega, rfl⟩
  · rintro ⟨i, place, hpos, hlt, rfl⟩
    exact ⟨i, place, by omega, rfl⟩

theorem nodup_chained (t : SharedHashTable setting) : t.chained.Nodup := by
  refine List.nodup_flatMap.mpr ⟨fun i _ => ?_, ?_⟩
  · refine (List.nodup_map_iff fun place place' h => ?_).mpr List.nodup_range'
    exact (Block.entry.inj h).2
  · refine (List.nodup_finRange _).imp fun hne block hblock hblock' => hne ?_
    obtain ⟨place, -, rfl⟩ := List.mem_map.mp hblock
    obtain ⟨place', -, heq⟩ := List.mem_map.mp hblock'
    exact Fin.ext (Block.entry.inj heq).1.symm

theorem mem_destroy {t : SharedHashTable setting} : block ∈ t.destroy ↔
    (∃ s record, t.load s = some record ∧ block = .record record.address) ∨
      ∃ (i : setting.BucketIndex) (place : Nat), 0 < place ∧ place < t.buckets[i].chainLength ∧
        block = .entry i place := by
  rw [t.destroy_perm.mem_iff, List.mem_append, mem_chained, List.mem_map]
  refine or_congr_left ⟨?_, ?_⟩
  · rintro ⟨record, hrecord, rfl⟩
    obtain ⟨s, hload⟩ := mem_records.mp hrecord
    exact ⟨s, record, hload, rfl⟩
  · rintro ⟨s, record, hload, rfl⟩
    exact ⟨record, mem_records.mpr ⟨s, hload⟩, rfl⟩

theorem nodup_destroy {t : SharedHashTable setting} (h : (t.records.map (·.address)).Nodup) :
    t.destroy.Nodup := by
  have hrecords := (List.nodup_map_iff fun a b hab => Block.record.inj hab).mpr h
  rw [List.map_map] at hrecords
  refine t.destroy_perm.nodup_iff.mpr (List.nodup_append.mpr ⟨hrecords, t.nodup_chained, ?_⟩)
  intro block hblock block' hblock' heq
  obtain ⟨record, -, rfl⟩ := List.mem_map.mp hblock
  obtain ⟨i, place, -, -, rfl⟩ := mem_chained.mp hblock'
  cases heq

end SharedHashTable

end L4
