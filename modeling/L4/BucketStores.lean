import L4.BucketUpdate

namespace L4
set_option autoImplicit true

/-- A single store of a writer to a bucket. -/
inductive Store where
  | linkEntry
  | storeData (p : SlotIndex) (data : Option RecordBuffer)
  | storeTag (p : SlotIndex) (tag : UInt8)

namespace Store

def apply (b : Bucket RecordBuffer) : Store → Bucket RecordBuffer
  | .linkEntry => b.appendEntry
  | .storeData p data => b.storeData p data
  | .storeTag p tag => b.storeTag p tag

/-- The stores of `UpdateRecord`, in program order. -/
def updateRecord (p : SlotIndex) (newRecord : Option RecordBuffer) (newTag : UInt8) : List Store :=
  [.storeData p newRecord, .storeTag p newTag]

/-- The stores of `Add` under the bucket lock. The loads of the scan are not among them: while the
lock is held nobody else stores to the bucket. -/
def ofAdd (rs : RecordSerializer) (key : Key) (tag : UInt8) (recordToAdd : RecordBuffer)
    (b : Bucket RecordBuffer) : List Store :=
  let st := b.scan rs key tag
  (if st.isNewEntryAdded then [.linkEntry] else []) ++
    st.entryToUpdate.toList.flatMap fun p => updateRecord p (some recordToAdd) tag

/-- The stores of `Remove` under the bucket lock. -/
def ofRemove (rs : RecordSerializer) (key : Key) (tag : UInt8) (b : Bucket RecordBuffer) :
    List Store :=
  (b.find? rs key tag).toList.flatMap fun found => updateRecord found.1 none 0

variable {rs : RecordSerializer} {tagOf : Key → UInt8} {b : Bucket RecordBuffer}

/-- One after the other, the stores of `Add` are its critical section. -/
theorem foldl_ofAdd (rs : RecordSerializer) (key : Key) (tag : UInt8) (record : RecordBuffer)
    (b : Bucket RecordBuffer) :
    (ofAdd rs key tag record b).foldl apply b = (b.addRecord rs key tag record).2 := by
  simp only [ofAdd, Bucket.addRecord]
  cases hslot : (b.scan rs key tag).entryToUpdate with
  | none => cases hnew : (b.scan rs key tag).isNewEntryAdded <;> simp [apply]
  | some p =>
    cases hnew : (b.scan rs key tag).isNewEntryAdded <;>
      simp [updateRecord, Bucket.updateRecord, apply]

theorem consistent_ofAdd (h : b.Consistent rs tagOf) (record : RecordBuffer) :
    ((ofAdd rs (rs.keyOf record) (tagOf (rs.keyOf record)) record b).foldl apply b).Consistent
      rs tagOf := by
  obtain ⟨p, hp⟩ := h.addSlot (rs.keyOf record)
  obtain ⟨-, hload, htag, -⟩ := hp.addRecord record
  rw [foldl_ofAdd]
  exact h.update hp.admits hload htag

theorem consistent_updateRecord_none (h : b.Consistent rs tagOf) (hp : b.load p = some record) :
    ((updateRecord p none 0).foldl apply b).Consistent rs tagOf := by
  have hlt := Bucket.mem_positions.mp (Bucket.mem_positions_of_load hp)
  exact h.clear (Bucket.load_updateRecord hlt) (Bucket.tag_updateRecord hlt)

theorem consistent_ofRemove (h : b.Consistent rs tagOf) (key : Key) :
    ((ofRemove rs key (tagOf key) b).foldl apply b).Consistent rs tagOf := by
  rw [ofRemove]
  cases hf : b.find? rs key (tagOf key) with
  | none => exact h
  | some found =>
    have hp := (h.find?_eq_some.mp hf).1
    simpa using consistent_updateRecord_none h hp

end Store

/-- The slot holds a record with the key, under the given tag. -/
def Bucket.HoldsKey (rs : RecordSerializer) (key : Key) (tag : UInt8) (p : SlotIndex)
    (b : Bucket RecordBuffer) : Prop :=
  (∃ r, b.load p = some r ∧ rs.keyOf r = key) ∧ b.tag p = tag

/-- A store that leaves the key and its tag in the slot. -/
def Store.Keeps (rs : RecordSerializer) (key : Key) (tag : UInt8) (p : SlotIndex) : Store → Prop
  | .linkEntry => True
  | .storeData q data => q = p → ∃ r, data = some r ∧ rs.keyOf r = key
  | .storeTag q newTag => q = p → newTag = tag

section Keeps
variable {rs : RecordSerializer} {tagOf : Key → UInt8} {b : Bucket RecordBuffer} {key : Key}

theorem Bucket.HoldsKey.entry_lt (h : b.HoldsKey rs key slotTag p) : p.entry < b.chainLength := by
  obtain ⟨⟨r, hr, -⟩, -⟩ := h
  exact Bucket.mem_positions.mp (Bucket.mem_positions_of_load hr)

theorem Bucket.HoldsKey.apply (h : b.HoldsKey rs key slotTag p) {st : Store}
    (hst : st.Keeps rs key slotTag p) : (st.apply b).HoldsKey rs key slotTag p := by
  obtain ⟨⟨r, hr, hk⟩, htag⟩ := h
  cases st with
  | linkEntry =>
    refine ⟨⟨r, ?_, hk⟩, ?_⟩
    · exact (b.load_appendEntry p).trans hr
    · exact (b.tag_appendEntry p).trans htag
  | storeData q data =>
    refine ⟨?_, (b.tag_storeData q p data).trans htag⟩
    simp only [Store.apply, Bucket.load_storeData]
    split_ifs with hq
    · obtain ⟨r', hr', hk'⟩ := hst hq.1.symm
      exact ⟨r', hr', hk'⟩
    · exact ⟨r, hr, hk⟩
  | storeTag q newTag =>
    refine ⟨⟨r, (b.load_storeTag q p newTag).trans hr, hk⟩, ?_⟩
    simp only [Store.apply, Bucket.tag_storeTag]
    split_ifs with hq
    · exact hst hq.1.symm
    · exact htag

namespace Store

theorem keeps_updateRecord (hdata : q = p → ∃ r, data = some r ∧ rs.keyOf r = key)
    (htag : q = p → newTag = slotTag) :
    ∀ st ∈ updateRecord q data newTag, st.Keeps rs key slotTag p := by
  intro st hst
  rcases List.mem_pair.mp hst with rfl | rfl
  · exact hdata
  · exact htag

theorem keeps_ofAdd (h : b.Consistent rs tagOf) (hp : b.HoldsKey rs key (tagOf key) p)
    (record : RecordBuffer) :
    ∀ st ∈ ofAdd rs (rs.keyOf record) (tagOf (rs.keyOf record)) record b,
      st.Keeps rs key (tagOf key) p := by
  obtain ⟨⟨r, hr, hk⟩, -⟩ := hp
  obtain ⟨q, hq⟩ := h.addSlot (rs.keyOf record)
  have hsame : q = p → rs.keyOf record = key := by
    intro hqp
    rw [← hk]
    exact (hq.admits.1 r (hqp ▸ hr)).symm
  intro st hst
  simp only [ofAdd, hq.chosen, Option.toList_some, List.flatMap_cons, List.flatMap_nil,
    List.append_nil, List.mem_append] at hst
  rcases hst with hst | hst
  · split_ifs at hst
    · obtain rfl := List.mem_singleton.mp hst
      trivial
    · cases hst
  · apply keeps_updateRecord _ _ st hst
    · intro hqp
      exact ⟨record, rfl, hsame hqp⟩
    · intro hqp
      rw [hsame hqp]

theorem keeps_updateRecord_none (hp : b.HoldsKey rs key slotTag p) (hq : b.load q = some record)
    (hk : rs.keyOf record ≠ key) :
    ∀ st ∈ updateRecord q none 0, st.Keeps rs key slotTag p := by
  obtain ⟨⟨r, hr, hkey⟩, -⟩ := hp
  have hne : q ≠ p := by
    rintro rfl
    obtain rfl := Option.some.inj (hq.symm.trans hr)
    exact hk hkey
  apply keeps_updateRecord
  · exact fun hqp => absurd hqp hne
  · exact fun hqp => absurd hqp hne

theorem keeps_ofRemove (h : b.Consistent rs tagOf) (hp : b.HoldsKey rs key slotTag p)
    (hk : removedKey ≠ key) :
    ∀ st ∈ ofRemove rs removedKey (tagOf removedKey) b, st.Keeps rs key slotTag p := by
  rw [ofRemove]
  cases hf : b.find? rs removedKey (tagOf removedKey) with
  | none =>
    intro st hst
    cases hst
  | some found =>
    obtain ⟨hq, hkey⟩ := h.find?_eq_some.mp hf
    simpa using keeps_updateRecord_none hp hq (hkey.trans_ne hk)

end Store

end Keeps

end L4
