import Mathlib.Data.List.ReduceOption
import L4.Record

namespace L4
set_option autoImplicit true

/-- `c_numDataPerEntry`. -/
abbrev numDataPerEntry : Nat := 16

/-- `sizeof(Entry)`, which a static assertion fixes. -/
def sizeofEntry : Nat := 152

instance : NeZero numDataPerEntry := ⟨by decide⟩

/-- A vector is read at the indices of its own length, which need no bounds check. -/
instance instGetElemFin : GetElem (Vector α n) (Fin n) α fun _ _ => True where
  getElem v i _ := v.get i

@[simp] theorem getElem_fin (v : Vector α n) (i : Fin n) : v[i] = v[i.val] := rfl

/-- One entry of a bucket chain: a tag and a data pointer for each of its slots. -/
structure Entry (Data : Type) where
  tags : Vector UInt8 numDataPerEntry
  dataList : Vector (Option Data) numDataPerEntry

def Entry.empty : Entry Data := ⟨.replicate _ 0, .replicate _ none⟩

/-- The place of a slot in a bucket: the number of its entry in the chain and its index there. -/
structure SlotIndex where
  entry : Nat
  index : Fin numDataPerEntry
deriving DecidableEq

/-- The slots that a loop over `count` entries visits, the first of them being `first`. -/
def slotsOf (first count : Nat) : List SlotIndex :=
  (List.range' first count).flatMap fun entry =>
    (List.finRange numDataPerEntry).map fun index => ⟨entry, index⟩

theorem mem_slotsOf : p ∈ slotsOf first count ↔ first ≤ p.entry ∧ p.entry < first + count := by
  obtain ⟨entry, index⟩ := p
  simp [slotsOf, List.mem_range'_1]

theorem slotsOf_succ (first count : Nat) : slotsOf first (count + 1) =
    (List.finRange numDataPerEntry).map (⟨first, ·⟩) ++ slotsOf (first + 1) count := by
  simp [slotsOf, List.range'_succ]

/-- The order in which a loop over a chain visits its slots. -/
def SlotIndex.Before (p q : SlotIndex) : Prop :=
  p.entry < q.entry ∨ p.entry = q.entry ∧ p.index < q.index

instance (p q : SlotIndex) : Decidable (p.Before q) := inferInstanceAs (Decidable (_ ∨ _))

theorem SlotIndex.before_irrefl (p : SlotIndex) : ¬ p.Before p := by
  simp [SlotIndex.Before]

theorem SlotIndex.Before.trans {p q r : SlotIndex} (h : p.Before q) (h' : q.Before r) :
    p.Before r := by
  simp only [SlotIndex.Before] at *
  omega

theorem SlotIndex.before_trichotomy (p q : SlotIndex) : p.Before q ∨ p = q ∨ q.Before p := by
  obtain ⟨pe, pi⟩ := p
  obtain ⟨qe, qi⟩ := q
  simp only [SlotIndex.Before, SlotIndex.mk.injEq, Fin.ext_iff, Fin.lt_def]
  omega

theorem slotsOf_pairwise (first count : Nat) :
    (slotsOf first count).Pairwise SlotIndex.Before := by
  induction count generalizing first with
  | zero => simp [slotsOf]
  | succ count ih =>
    rw [slotsOf_succ, List.pairwise_append]
    refine ⟨?_, ih (first + 1), ?_⟩
    · rw [List.pairwise_map]
      exact (List.pairwise_lt_finRange _).imp fun h => .inr ⟨rfl, h⟩
    · intro p hp q hq
      obtain ⟨i, -, rfl⟩ := List.mem_map.mp hp
      exact .inl (mem_slotsOf.mp hq).1

/-- A bucket: its head entry and the entries chained to it. -/
structure Bucket (Data : Type) where
  entries : List (Entry Data)
  entries_ne : entries ≠ []

namespace Bucket
variable {Data : Type}

def empty : Bucket Data := ⟨[.empty], by simp⟩

/-- The number of entries in the chain, the head included. -/
def chainLength (b : Bucket Data) : Nat := b.entries.length

theorem chainLength_pos (b : Bucket Data) : 0 < b.chainLength :=
  List.length_pos_iff.mpr b.entries_ne

def load (b : Bucket Data) (p : SlotIndex) : Option Data :=
  b.entries[p.entry]?.bind (·.dataList[p.index])

def tag (b : Bucket Data) (p : SlotIndex) : UInt8 :=
  (b.entries[p.entry]?.map (·.tags[p.index])).getD 0

def modifyEntry (b : Bucket Data) (entry : Nat) (f : Entry Data → Entry Data) : Bucket Data where
  entries := b.entries.modify entry f
  entries_ne := by simpa [← List.length_pos_iff] using b.entries_ne

def storeData (b : Bucket Data) (p : SlotIndex) (data : Option Data) : Bucket Data :=
  b.modifyEntry p.entry fun e => { e with dataList := e.dataList.set p.index.val data p.index.isLt }

def storeTag (b : Bucket Data) (p : SlotIndex) (tag : UInt8) : Bucket Data :=
  b.modifyEntry p.entry fun e => { e with tags := e.tags.set p.index.val tag p.index.isLt }

/-- A new entry is linked after the last one. -/
def appendEntry (b : Bucket Data) : Bucket Data := ⟨b.entries ++ [.empty], by simp⟩

/-- The slots in the order in which every loop over a chain visits them. -/
def positions (b : Bucket Data) : List SlotIndex := slotsOf 0 b.chainLength

/-- The records of a bucket in that order. -/
def records (b : Bucket Data) : List Data := b.positions.filterMap b.load

theorem mem_positions {b : Bucket Data} : p ∈ b.positions ↔ p.entry < b.chainLength := by
  simp [positions, mem_slotsOf]

theorem load_eq_none_of_le {b : Bucket Data} (h : b.chainLength ≤ p.entry) : b.load p = none := by
  simp [load, List.getElem?_eq_none h]

theorem mem_positions_of_load {b : Bucket Data} (h : b.load p = some d) : p ∈ b.positions := by
  rw [mem_positions]
  by_contra hle
  rw [load_eq_none_of_le (Nat.not_lt.mp hle)] at h
  cases h

theorem mem_records {b : Bucket Data} : d ∈ b.records ↔ ∃ p, b.load p = some d := by
  simp only [records, List.mem_filterMap]
  exact ⟨fun ⟨p, _, hp⟩ => ⟨p, hp⟩, fun ⟨p, hp⟩ => ⟨p, mem_positions_of_load hp, hp⟩⟩

@[simp] theorem chainLength_modifyEntry (b : Bucket Data) (n : Nat) (f : Entry Data → Entry Data) :
    (b.modifyEntry n f).chainLength = b.chainLength := by
  simp [modifyEntry, chainLength]

@[simp] theorem chainLength_storeData (b : Bucket Data) (p : SlotIndex) (d : Option Data) :
    (b.storeData p d).chainLength = b.chainLength :=
  chainLength_modifyEntry _ _ _

@[simp] theorem chainLength_storeTag (b : Bucket Data) (p : SlotIndex) (t : UInt8) :
    (b.storeTag p t).chainLength = b.chainLength :=
  chainLength_modifyEntry _ _ _

@[simp] theorem chainLength_appendEntry (b : Bucket Data) :
    b.appendEntry.chainLength = b.chainLength + 1 := by
  simp [appendEntry, chainLength]

theorem modifyEntry_getElem? (b : Bucket Data) (n i : Nat) (f : Entry Data → Entry Data) :
    (b.modifyEntry n f).entries[i]? = (b.entries[i]?).map fun e => if n = i then f e else e := by
  rw [modifyEntry, List.getElem?_modify]
  cases b.entries[i]? <;> rfl

theorem map_modifyEntry {b : Bucket Data} {p : SlotIndex} {f : Entry Data → Entry Data}
    (part : Entry Data → Fin numDataPerEntry → α)
    (hpart : ∀ e i, part (f e) i = if p.index.val = i.val then v else part e i) (q : SlotIndex) :
    ((b.modifyEntry p.entry f).entries[q.entry]?.map fun e => part e q.index) =
      if q = p ∧ p.entry < b.chainLength then some v
      else b.entries[q.entry]?.map fun e => part e q.index := by
  obtain ⟨pe, pi⟩ := p
  obtain ⟨qe, qi⟩ := q
  simp only [modifyEntry_getElem?, SlotIndex.mk.injEq, chainLength]
  cases hq : b.entries[qe]? with
  | none =>
    have hle := List.getElem?_eq_none_iff.mp hq
    rw [if_neg]
    · rfl
    · rintro ⟨⟨rfl, -⟩, hlt⟩
      omega
  | some e =>
    have hlt := (List.getElem?_eq_some_iff.mp hq).1
    simp only [Option.map_some]
    by_cases hn : pe = qe
    · subst hn
      by_cases hi : pi = qi
      · simp [hpart, hi, hlt]
      · simp [hpart, Fin.val_ne_of_ne hi, Ne.symm hi]
    · simp [hn, Ne.symm hn]

theorem load_eq_join (b : Bucket Data) (p : SlotIndex) :
    b.load p = (b.entries[p.entry]?.map fun e => e.dataList[p.index]).join := by
  rw [load]
  cases b.entries[p.entry]? <;> rfl

theorem load_storeData (b : Bucket Data) (p q : SlotIndex) (d : Option Data) :
    (b.storeData p d).load q =
      if q = p ∧ p.entry < b.chainLength then d else b.load q := by
  rw [load_eq_join, load_eq_join, storeData, map_modifyEntry (v := d) (fun e i => e.dataList[i])
    fun e i => Vector.getElem_set p.index.isLt i.isLt]
  split_ifs <;> rfl

theorem tag_storeTag (b : Bucket Data) (p q : SlotIndex) (t : UInt8) :
    (b.storeTag p t).tag q = if q = p ∧ p.entry < b.chainLength then t else b.tag q := by
  rw [tag, tag, storeTag, map_modifyEntry (v := t) (fun e i => e.tags[i])
    fun e i => Vector.getElem_set p.index.isLt i.isLt]
  split_ifs <;> rfl

@[simp] theorem tag_storeData (b : Bucket Data) (p q : SlotIndex) (d : Option Data) :
    (b.storeData p d).tag q = b.tag q := by
  simp only [tag, storeData, modifyEntry_getElem?]
  cases b.entries[q.entry]? with
  | none => rfl
  | some e =>
    simp only [Option.map_some, Option.getD_some]
    split_ifs <;> rfl

@[simp] theorem load_storeTag (b : Bucket Data) (p q : SlotIndex) (t : UInt8) :
    (b.storeTag p t).load q = b.load q := by
  simp only [load, storeTag, modifyEntry_getElem?]
  cases b.entries[q.entry]? with
  | none => rfl
  | some e =>
    simp only [Option.map_some, Option.bind_some]
    split_ifs <;> rfl

@[simp] theorem load_empty (p : SlotIndex) : (empty : Bucket Data).load p = none := by
  obtain ⟨entry, index⟩ := p
  cases entry with
  | zero => simp [load, empty, Entry.empty]
  | succ n => rfl

/-- The slots of a new entry are empty, so linking it does not change what a load finds. -/
@[simp] theorem load_appendEntry (b : Bucket Data) (p : SlotIndex) :
    b.appendEntry.load p = b.load p := by
  rcases Nat.lt_trichotomy p.entry b.entries.length with h | h | h
  · simp [load, appendEntry, List.getElem?_append_left h]
  · simp [load, appendEntry, h, Entry.empty]
  · rw [load_eq_none_of_le (Nat.le_of_lt h), load_eq_none_of_le]
    rw [chainLength_appendEntry]
    exact h

@[simp] theorem tag_appendEntry (b : Bucket Data) (p : SlotIndex) :
    b.appendEntry.tag p = b.tag p := by
  rcases Nat.lt_trichotomy p.entry b.entries.length with h | h | h
  · simp [tag, appendEntry, List.getElem?_append_left h]
  · simp [tag, appendEntry, h, Entry.empty]
  · rw [tag, tag, List.getElem?_eq_none (Nat.le_of_lt h), List.getElem?_eq_none]
    simpa [appendEntry] using Nat.succ_le_of_lt h

theorem positions_pairwise (b : Bucket Data) : b.positions.Pairwise SlotIndex.Before :=
  slotsOf_pairwise _ _

theorem slotsOf_split {count : Nat} (hp : p ∈ slotsOf first count) :
    ∃ before after : List SlotIndex, slotsOf first count = before ++ p :: after ∧
      (∀ q ∈ before, q.Before p) ∧ ∀ q ∈ after, p.Before q := by
  obtain ⟨before, after, hsplit⟩ := List.append_of_mem hp
  have hpair := slotsOf_pairwise first count
  rw [hsplit, List.pairwise_append, List.pairwise_cons] at hpair
  exact ⟨before, after, hsplit, fun q hq => hpair.2.2 q hq p (by simp), hpair.2.1.1⟩

theorem records_eq_of_le {b : Bucket Data} (h : b.chainLength ≤ count) :
    b.records = (slotsOf 0 count).filterMap b.load := by
  have hsplit : slotsOf 0 count =
      b.positions ++ slotsOf b.chainLength (count - b.chainLength) := by
    have hrange : List.range' 0 b.chainLength ++
        List.range' b.chainLength (count - b.chainLength) = List.range' 0 count := by
      simpa [Nat.add_sub_cancel' h] using
        List.range'_append_1 (s := 0) (m := b.chainLength) (n := count - b.chainLength)
    rw [positions, slotsOf, slotsOf, slotsOf, ← List.flatMap_append, hrange]
  have hrest : (slotsOf b.chainLength (count - b.chainLength)).filterMap b.load = [] := by
    rw [List.filterMap_eq_nil_iff]
    exact fun p hp => load_eq_none_of_le (mem_slotsOf.mp hp).1
  rw [hsplit, List.filterMap_append, hrest, List.append_nil, records]

theorem records_update {b b' : Bucket Data} (hp : p.entry < b'.chainLength)
    (hle : b.chainLength ≤ b'.chainLength) (hload : b'.load = Function.update b.load p d) :
    ∃ before after : List SlotIndex, (∀ q ∈ before, q.Before p) ∧ (∀ q ∈ after, p.Before q) ∧
      b.records = before.filterMap b.load ++ (b.load p).toList ++ after.filterMap b.load ∧
      b'.records = before.filterMap b.load ++ d.toList ++ after.filterMap b.load := by
  obtain ⟨before, after, hsplit, hbefore, hafter⟩ :=
    slotsOf_split (mem_slotsOf.mpr ⟨Nat.zero_le p.entry, by simpa using hp⟩)
  have htoList (f : SlotIndex → Option Data) : List.filterMap f [p] = (f p).toList := by
    cases h : f p <;> simp [h]
  have hother : ∀ q, q ≠ p → b'.load q = b.load q := fun q hq => by
    rw [hload, Function.update_of_ne hq]
  refine ⟨before, after, hbefore, hafter, ?_, ?_⟩
  · rw [records_eq_of_le hle, hsplit, List.append_cons, List.filterMap_append,
      List.filterMap_append, htoList]
  · rw [records, positions, hsplit, List.append_cons, List.filterMap_append,
      List.filterMap_append, htoList, hload, Function.update_self, ← hload]
    congr 1
    · congr 1
      refine List.filterMap_congr fun q hq => hother q ?_
      rintro rfl
      exact q.before_irrefl (hbefore q hq)
    · refine List.filterMap_congr fun q hq => hother q ?_
      rintro rfl
      exact q.before_irrefl (hafter q hq)

end Bucket

end L4
