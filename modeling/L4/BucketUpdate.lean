import L4.BucketScan
import L4.Library.KeyedSlots

namespace L4
set_option autoImplicit true

/-- The record that a buffer holds, its key and its value. -/
def RecordSerializer.keyOf (rs : RecordSerializer) (r : RecordBuffer) : Key :=
  (rs.deserialize r.bytes).key

def RecordSerializer.valueOf (rs : RecordSerializer) (r : RecordBuffer) : Value :=
  (rs.deserialize r.bytes).value

namespace Bucket

/-- The first empty slot of the chain. -/
def firstHole (b : Bucket RecordBuffer) : Option SlotIndex :=
  b.positions.find? fun p => (b.load p).isNone

/-- `UpdateRecord`: the record found in the slot and the bucket after both stores. -/
def updateRecord (b : Bucket RecordBuffer) (p : SlotIndex) (newRecord : Option RecordBuffer)
    (newTag : UInt8) : Option RecordBuffer × Bucket RecordBuffer :=
  (b.load p, (b.storeData p newRecord).storeTag p newTag)

/-- The critical section of `Add`: the scan, which may link a new entry, and the update of the
slot it has chosen. -/
def addRecord (rs : RecordSerializer) (key : Key) (tag : UInt8) (recordToAdd : RecordBuffer)
    (b : Bucket RecordBuffer) : Option RecordBuffer × Bucket RecordBuffer :=
  let st := b.scan rs key tag
  let b := if st.isNewEntryAdded then b.appendEntry else b
  match st.entryToUpdate with
  | some p => b.updateRecord p (some recordToAdd) tag
  | none => (none, b)

/-- Keys are unique in the chain and the tag of every occupied slot is that of its key. -/
structure Consistent (rs : RecordSerializer) (tagOf : Key → UInt8) (b : Bucket RecordBuffer) :
    Prop where
  unique : KeyedSlots.UniqueKeys rs.keyOf b.load
  tags : ∀ p r, b.load p = some r → b.tag p = tagOf (rs.keyOf r)

variable {rs : RecordSerializer} {tagOf : Key → UInt8}

theorem Consistent.matches_iff {b : Bucket RecordBuffer} (h : b.Consistent rs tagOf)
    (hp : b.load p = some r) : Matches rs key (tagOf key) (b.tag p) r ↔ rs.keyOf r = key := by
  rw [Matches, h.tags p r hp]
  constructor
  · exact fun hm => hm.2
  · exact fun hk => ⟨by rw [hk], hk⟩

theorem Consistent.find?_eq_some {b : Bucket RecordBuffer} (h : b.Consistent rs tagOf) :
    b.find? rs key (tagOf key) = some (p, r) ↔ b.load p = some r ∧ rs.keyOf r = key := by
  constructor
  · intro hf
    obtain ⟨hp, hm⟩ := find?_some hf
    exact ⟨hp, (h.matches_iff hp).mp hm⟩
  · rintro ⟨hp, hk⟩
    cases hf : b.find? rs key (tagOf key) with
    | none => exact absurd ((h.matches_iff hp).mpr hk) (find?_none hf hp)
    | some found =>
      obtain ⟨q, d⟩ := found
      obtain ⟨hq, hm⟩ := find?_some hf
      have hd := (h.matches_iff hq).mp hm
      obtain rfl := h.unique p q r d hp hq (hk.trans hd.symm)
      rw [Option.some.inj (hp.symm.trans hq)]

theorem Consistent.find?_eq_none {b : Bucket RecordBuffer} (h : b.Consistent rs tagOf) :
    b.find? rs key (tagOf key) = none ↔ ∀ p r, b.load p = some r → rs.keyOf r ≠ key := by
  constructor
  · intro hf p r hp hk
    exact find?_none hf hp ((h.matches_iff hp).mpr hk)
  · intro hn
    cases hf : b.find? rs key (tagOf key) with
    | none => rfl
    | some found =>
      obtain ⟨hp, hk⟩ := h.find?_eq_some.mp hf
      exact absurd hk (hn _ _ hp)

theorem load_updateRecord {b : Bucket RecordBuffer} (hp : p.entry < b.chainLength) :
    (b.updateRecord p r t).2.load = Function.update b.load p r := by
  funext q
  simp [updateRecord, load_storeData, Function.update_apply, hp]

theorem tag_updateRecord {b : Bucket RecordBuffer} (hp : p.entry < b.chainLength) :
    (b.updateRecord p r t).2.tag = Function.update b.tag p t := by
  funext q
  simp [updateRecord, tag_storeTag, Function.update_apply, hp]

@[simp] theorem chainLength_updateRecord (b : Bucket RecordBuffer) :
    (b.updateRecord p r t).2.chainLength = b.chainLength := by
  simp [updateRecord]

theorem Consistent.update {b b' : Bucket RecordBuffer} (h : b.Consistent rs tagOf)
    (hp : KeyedSlots.Admits rs.keyOf b.load p (rs.keyOf r))
    (hload : b'.load = Function.update b.load p (some r))
    (htag : b'.tag = Function.update b.tag p (tagOf (rs.keyOf r))) : b'.Consistent rs tagOf where
  unique := by
    rw [hload]
    exact h.unique.update_some hp
  tags := by
    intro q d hq
    rw [hload, Function.update_apply] at hq
    rw [htag, Function.update_apply]
    split_ifs at hq ⊢
    · obtain rfl := Option.some.inj hq
      rfl
    · exact h.tags q d hq

theorem Consistent.clear {b b' : Bucket RecordBuffer} (h : b.Consistent rs tagOf)
    (hload : b'.load = Function.update b.load p none)
    (htag : b'.tag = Function.update b.tag p t) : b'.Consistent rs tagOf where
  unique := by
    rw [hload]
    exact h.unique.update_none
  tags := by
    intro q d hq
    rw [hload, Function.update_apply] at hq
    rw [htag, Function.update_apply]
    split_ifs at hq ⊢
    exact h.tags q d hq

/-- The slot that `Add` chooses for a key: the slot of the key's record, else the first empty
slot, else the first slot of an entry that it links after the chain. -/
structure AddSlot (rs : RecordSerializer) (key : Key) (b : Bucket RecordBuffer) (st : AddScan)
    (p : SlotIndex) : Prop where
  chosen : st.entryToUpdate = some p
  admits : KeyedSlots.Admits rs.keyOf b.load p key
  oldValueSize : st.oldValueSize = (b.load p).elim 0 fun r => (rs.valueOf r).size
  entry_le : p.entry ≤ b.chainLength
  isNewEntryAdded : st.isNewEntryAdded = decide (p.entry = b.chainLength)
  chainIndex : p.entry = b.chainLength → st.chainIndex = .ofNat (b.chainLength + 1)
  first : b.load p = none → ∀ q, q.Before p → ∃ r, b.load q = some r

theorem exists_load_before_hole {b : Bucket RecordBuffer} (h : b.firstHole = some p) :
    b.load p = none ∧ p.entry < b.chainLength ∧ ∀ q, q.Before p → ∃ r, b.load q = some r := by
  obtain ⟨hp, before, after, hsplit, hbefore⟩ := List.find?_eq_some_iff_append.mp h
  have hpair := b.positions_pairwise
  have hmem : p ∈ b.positions := by simp [hsplit]
  refine ⟨by simpa using hp, mem_positions.mp hmem, fun q hq => ?_⟩
  have hqmem : q ∈ b.positions := by
    rw [mem_positions] at hmem ⊢
    simp only [SlotIndex.Before] at hq
    omega
  rw [hsplit] at hqmem hpair
  rw [List.pairwise_append, List.pairwise_cons] at hpair
  rcases List.mem_append.mp hqmem with hqb | hqa
  · simpa [← Option.isSome_iff_exists] using hbefore q hqb
  · rcases List.mem_cons.mp hqa with rfl | hqa
    · exact absurd hq q.before_irrefl
    · exact absurd (hq.trans (hpair.2.1.1 q hqa)) q.before_irrefl

theorem Consistent.addSlot {b : Bucket RecordBuffer} (h : b.Consistent rs tagOf) (key : Key) :
    ∃ p, AddSlot rs key b (b.scan rs key (tagOf key)) p := by
  by_cases hex : ∃ p r, b.load p = some r ∧ rs.keyOf r = key
  · obtain ⟨p, r, hp, rfl⟩ := hex
    obtain ⟨hslot, hsize, hnew⟩ := scanChain_found (n := 0) b.entries List.drop_zero
      (Nat.zero_le _) hp ((h.matches_iff hp).mpr rfl)
      (fun q d hq hm => h.unique q p d r hq hp ((h.matches_iff hq).mp hm)) ⟨none, 0, 0, false⟩ rfl
    have hlt := mem_positions.mp (mem_positions_of_load hp)
    refine ⟨p, hslot, h.unique.admits hp, ?_, Nat.le_of_lt hlt, ?_, ?_, ?_⟩
    · rw [hp]
      exact hsize
    · rw [decide_eq_false (Nat.ne_of_lt hlt)]
      exact hnew
    · exact fun he => absurd he (Nat.ne_of_lt hlt)
    · intro hn
      rw [hn] at hp
      cases hp
  · push Not at hex
    have hscan := scanChain_absent (n := 0) b.entries List.drop_zero
      (fun p r _ hp hm => hex p r hp ((h.matches_iff hp).mp hm)) ⟨none, 0, 0, false⟩ rfl
      (.inl b.entries_ne)
    have hadmits : ∀ p, b.load p = none → KeyedSlots.Admits rs.keyOf b.load p key := by
      refine fun p hp => ⟨fun r hr => ?_, fun q r hq hk => absurd hk (hex q r hq)⟩
      rw [hp] at hr
      cases hr
    change scan rs key (tagOf key) b = match b.firstHole with | some p => _ | none => _ at hscan
    cases hhole : b.firstHole with
    | some p =>
      obtain ⟨hp, hlt, hfirst⟩ := exists_load_before_hole hhole
      rw [hscan, hhole]
      refine ⟨p, rfl, hadmits p hp, by simp [hp], Nat.le_of_lt hlt, ?_, ?_, fun _ => hfirst⟩
      · rw [decide_eq_false (Nat.ne_of_lt hlt)]
      · exact fun he => absurd he (Nat.ne_of_lt hlt)
    | none =>
      rw [hscan, hhole]
      have hfull : ∀ q, q.entry < b.chainLength → ∃ r, b.load q = some r := by
        intro q hq
        have hq' := List.find?_eq_none.mp hhole q (mem_positions.mpr hq)
        rw [Option.isNone_iff_eq_none] at hq'
        exact Option.ne_none_iff_exists'.mp hq'
      simp only [Nat.zero_add]
      have hp : b.load ⟨b.entries.length, 0⟩ = none := load_eq_none_of_le (Nat.le_refl _)
      refine ⟨⟨b.entries.length, 0⟩, rfl, hadmits _ hp, ?_, Nat.le_refl _, ?_, ?_,
        fun _ q hq => hfull q ?_⟩
      · rw [hp]
        rfl
      · exact (decide_eq_true rfl).symm
      · intro _
        rw [chainLength, UInt32.ofNat_add, UInt32.zero_add]
        rfl
      · simpa [SlotIndex.Before, chainLength] using hq

/-- What the critical section of `Add` does to a consistent bucket. -/
theorem AddSlot.addRecord {b : Bucket RecordBuffer} {newTag : UInt8}
    (h : AddSlot rs key b (b.scan rs key newTag) p) (r : RecordBuffer) :
    (b.addRecord rs key newTag r).1 = b.load p ∧
      (b.addRecord rs key newTag r).2.load = Function.update b.load p (some r) ∧
      (b.addRecord rs key newTag r).2.tag = Function.update b.tag p newTag ∧
      (b.addRecord rs key newTag r).2.chainLength =
        b.chainLength + if p.entry = b.chainLength then 1 else 0 := by
  simp only [Bucket.addRecord, h.chosen, h.isNewEntryAdded, decide_eq_true_eq]
  have hle := h.entry_le
  split_ifs with hnew
  · have hlt : p.entry < b.appendEntry.chainLength := by
      rw [chainLength_appendEntry]
      omega
    refine ⟨by simp [updateRecord], ?_, ?_, by simp⟩
    · rw [load_updateRecord hlt, funext b.load_appendEntry]
    · rw [tag_updateRecord hlt, funext b.tag_appendEntry]
  · have hlt : p.entry < b.chainLength := by omega
    exact ⟨rfl, load_updateRecord hlt, tag_updateRecord hlt, by simp⟩

end Bucket

end L4
