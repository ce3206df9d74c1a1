import L4.Bucket

namespace L4
set_option autoImplicit true

namespace Bucket

section Find
variable (rs : RecordSerializer) (key : Key) (tag : UInt8)

/-- The test that `Get`, `Remove` and `Add` make on an occupied slot: the tag first, then the
key of the record. -/
def Matches (slotTag : UInt8) (data : RecordBuffer) : Prop :=
  tag = slotTag ∧ (rs.deserialize data.bytes).key = key

instance (slotTag : UInt8) (data : RecordBuffer) : Decidable (Matches rs key tag slotTag data) :=
  inferInstanceAs (Decidable (_ ∧ _))

/-- The loop of `Get` and `Remove`: the first slot with the tag whose record has the key. -/
def find? (b : Bucket RecordBuffer) : Option (SlotIndex × RecordBuffer) :=
  b.positions.findSome? fun p =>
    if tag = b.tag p then
      match b.load p with
      | some data =>
        if (rs.deserialize data.bytes).key = key then some (p, data) else none
      | none => none
    else none

variable {rs key tag}

theorem find?_some {b : Bucket RecordBuffer} (h : b.find? rs key tag = some (p, data)) :
    b.load p = some data ∧ Matches rs key tag (b.tag p) data := by
  obtain ⟨q, -, hq⟩ := List.exists_of_findSome?_eq_some h
  split_ifs at hq with htag
  split at hq
  · rename_i data' hload
    split_ifs at hq with hkey
    cases hq
    exact ⟨hload, htag, hkey⟩
  · cases hq

theorem find?_none {b : Bucket RecordBuffer} (h : b.find? rs key tag = none)
    (hload : b.load p = some data) : ¬ Matches rs key tag (b.tag p) data := by
  rintro ⟨htag, hkey⟩
  have hp := List.findSome?_eq_none_iff.mp h p (mem_positions_of_load hload)
  simp only [hload] at hp
  rw [if_pos htag, if_pos hkey] at hp
  cases hp

end Find

/-- The locals that the loop of `Add` fills in. -/
structure AddScan where
  entryToUpdate : Option SlotIndex
  oldValueSize : Nat
  chainIndex : UInt32
  isNewEntryAdded : Bool

section Scan
variable (rs : RecordSerializer) (newKey : Key) (tag : UInt8)

/-- The inner loop of `Add` over the slots of one entry. -/
def scanEntry (entry : Entry RecordBuffer) (n : Nat) :
    List (Fin numDataPerEntry) → AddScan → AddScan
  | [], st => st
  | i :: is, st =>
    match entry.dataList[i] with
    | none =>
      scanEntry entry n is
        (if st.entryToUpdate.isNone then { st with entryToUpdate := some ⟨n, i⟩ } else st)
    | some data =>
      if Matches rs newKey tag entry.tags[i] data then
        { st with
          entryToUpdate := some ⟨n, i⟩
          oldValueSize := (rs.deserialize data.bytes).value.size }
      else scanEntry entry n is st

/-- The outer loop of `Add`. It stops after an entry with a match only when the size of the old
value is not zero. At the end of the chain an entry is appended if there is no slot to update,
and the loop goes on with that entry. -/
def scanChain : List (Entry RecordBuffer) → Nat → AddScan → AddScan
  | [], _, st => st
  | entry :: rest, n, st =>
    let st := scanEntry rs newKey tag entry n (List.finRange numDataPerEntry)
      { st with chainIndex := st.chainIndex + 1 }
    if st.oldValueSize ≠ 0 then st
    else if st.entryToUpdate.isNone ∧ rest.isEmpty then
      scanEntry rs newKey tag .empty (n + 1) (List.finRange numDataPerEntry)
        { st with chainIndex := st.chainIndex + 1, isNewEntryAdded := true }
    else scanChain rest (n + 1) st

def scan (b : Bucket RecordBuffer) : AddScan :=
  scanChain rs newKey tag b.entries 0 ⟨none, 0, 0, false⟩

variable {rs newKey tag}

/-- The first empty slot of an entry. -/
def entryHole (entry : Entry RecordBuffer) : Option (Fin numDataPerEntry) :=
  (List.finRange numDataPerEntry).find? fun i => entry.dataList[i].isNone

/-- The first empty slot among those of `count` entries of a chain. -/
def holeFrom (b : Bucket RecordBuffer) (first count : Nat) : Option SlotIndex :=
  (slotsOf first count).find? fun p => (b.load p).isNone

theorem scanEntry_absent {entry : Entry RecordBuffer} (is : List (Fin numDataPerEntry))
    (h : ∀ i ∈ is, ∀ data, entry.dataList[i] = some data →
      ¬ Matches rs newKey tag entry.tags[i] data) (st : AddScan) :
    scanEntry rs newKey tag entry n is st =
      { st with
        entryToUpdate :=
          st.entryToUpdate.or ((is.find? fun i => entry.dataList[i].isNone).map (⟨n, ·⟩)) } := by
  induction is generalizing st with
  | nil => simp [scanEntry]
  | cons i is ih =>
    have hrest := ih fun j hj => h j (List.mem_cons_of_mem _ hj)
    rw [scanEntry]
    cases hi : entry.dataList[i] with
    | none =>
      rw [hrest, List.find?_cons_of_pos (by simp [hi])]
      cases hst : st.entryToUpdate <;> simp [hst]
    | some data =>
      simp only [if_neg (h i (by simp) data hi)]
      rw [hrest, List.find?_cons_of_neg (by simp [hi])]

theorem scanEntry_found {entry : Entry RecordBuffer} (is : List (Fin numDataPerEntry))
    (hi : i ∈ is) (hload : entry.dataList[i] = some data)
    (hmatch : Matches rs newKey tag entry.tags[i] data)
    (hunique : ∀ j ∈ is, ∀ d, entry.dataList[j] = some d →
      Matches rs newKey tag entry.tags[j] d → j = i) (st : AddScan) :
    scanEntry rs newKey tag entry n is st =
      { st with
        entryToUpdate := some ⟨n, i⟩
        oldValueSize := (rs.deserialize data.bytes).value.size } := by
  induction is generalizing st with
  | nil => cases hi
  | cons j is ih =>
    by_cases hj : j = i
    · subst hj
      rw [scanEntry]
      simp only [hload, if_pos hmatch]
    · have hmem : i ∈ is := (List.mem_cons.mp hi).resolve_left (Ne.symm hj)
      have hrest := ih hmem fun l hl => hunique l (List.mem_cons_of_mem _ hl)
      rw [scanEntry]
      cases hd : entry.dataList[j] with
      | none =>
        simp only [hrest]
        split_ifs <;> rfl
      | some d =>
        simp only [if_neg fun hm => hj (hunique j (by simp) d hd hm)]
        exact hrest st

theorem load_of_entry {b : Bucket RecordBuffer} (h : b.entries[n]? = some entry)
    (i : Fin numDataPerEntry) : b.load ⟨n, i⟩ = entry.dataList[i] := by
  simp [load, h]

theorem tag_of_entry {b : Bucket RecordBuffer} (h : b.entries[n]? = some entry)
    (i : Fin numDataPerEntry) : b.tag ⟨n, i⟩ = entry.tags[i] := by
  simp [Bucket.tag, h]

theorem scanEntry_empty (st : AddScan) (hst : st.entryToUpdate = none) :
    scanEntry rs newKey tag .empty n (List.finRange numDataPerEntry) st =
      { st with entryToUpdate := some ⟨n, 0⟩ } := by
  have hfirst : List.finRange numDataPerEntry = 0 :: (List.finRange 15).map Fin.succ :=
    List.finRange_succ
  rw [scanEntry_absent _ (by simp [Entry.empty]), hst, hfirst, List.find?_cons_of_pos]
  · rfl
  · simp [Entry.empty]

theorem holeFrom_succ {b : Bucket RecordBuffer} (h : b.entries[n]? = some entry) (count : Nat) :
    b.holeFrom n (count + 1) = ((entryHole entry).map (⟨n, ·⟩)).or (b.holeFrom (n + 1) count) := by
  have hload : ((fun p => (b.load p).isNone) ∘ fun i => ⟨n, i⟩) =
      fun i : Fin numDataPerEntry => entry.dataList[i].isNone := by
    funext i
    simp only [Function.comp_apply, load_of_entry h]
  rw [holeFrom, slotsOf_succ, List.find?_append, List.find?_map, hload]
  rfl

/-- Without a match the slot to update is the first empty one, or else the first slot of an
entry appended to the chain. -/
theorem scanChain_absent {b : Bucket RecordBuffer} (rest : List (Entry RecordBuffer))
    (hrest : b.entries.drop n = rest)
    (habsent : ∀ p data, n ≤ p.entry → b.load p = some data →
      ¬ Matches rs newKey tag (b.tag p) data)
    (st : AddScan) (hsize : st.oldValueSize = 0) (hne : rest ≠ [] ∨ st.entryToUpdate.isSome) :
    scanChain rs newKey tag rest n st =
      match st.entryToUpdate.or (b.holeFrom n rest.length) with
      | some p =>
        { st with entryToUpdate := some p, chainIndex := st.chainIndex + .ofNat rest.length }
      | none =>
        { st with
          entryToUpdate := some ⟨n + rest.length, 0⟩
          chainIndex := st.chainIndex + .ofNat rest.length + 1
          isNewEntryAdded := true } := by
  induction rest generalizing n st with
  | nil =>
    obtain ⟨p, hp⟩ := Option.isSome_iff_exists.mp (hne.resolve_left (by simp))
    obtain ⟨slot, size, chain, new⟩ := st
    obtain rfl : slot = some p := hp
    simp [scanChain]
  | cons entry rest ih =>
    have hentry : b.entries[n]? = some entry := by
      rw [← List.head?_drop, hrest, List.head?_cons]
    have hdrop : b.entries.drop (n + 1) = rest := by
      rw [← List.tail_drop, hrest, List.tail_cons]
    have hscan := scanEntry_absent (n := n) (List.finRange numDataPerEntry)
      (fun i _ data hdata => by
        rw [← tag_of_entry hentry]
        exact habsent ⟨n, i⟩ data (Nat.le_refl _) ((load_of_entry hentry i).trans hdata))
      { st with chainIndex := st.chainIndex + 1 }
    change _ = { st with
      entryToUpdate := st.entryToUpdate.or ((entryHole entry).map (⟨n, ·⟩))
      chainIndex := st.chainIndex + 1 } at hscan
    rw [List.length_cons, holeFrom_succ hentry, ← Option.or_assoc]
    generalize st.entryToUpdate.or ((entryHole entry).map (⟨n, ·⟩)) = slot at hscan ⊢
    simp only [scanChain, hscan]
    rw [if_neg (not_not.mpr hsize)]
    split_ifs with hend
    · obtain ⟨hnone, hempty⟩ := hend
      obtain rfl := List.isEmpty_iff.mp hempty
      obtain rfl := Option.isNone_iff_eq_none.mp hnone
      rw [scanEntry_empty _ rfl]
      rfl
    · have hne' : rest ≠ [] ∨ slot.isSome := by
        by_cases hr : rest = []
        · subst hr
          refine .inr ?_
          by_contra hs
          exact hend ⟨by simpa using hs, rfl⟩
        · exact .inl hr
      have hchain : st.chainIndex + 1 + .ofNat rest.length =
          st.chainIndex + .ofNat (rest.length + 1) := by
        rw [UInt32.ofNat_add, UInt32.add_assoc, UInt32.add_comm 1]
        rfl
      have hplace : n + 1 + rest.length = n + (rest.length + 1) := by omega
      have hih := ih hdrop (fun p data hp => habsent p data (Nat.le_of_succ_le hp))
        { st with entryToUpdate := slot, chainIndex := st.chainIndex + 1 } hsize hne'
      simp only [hchain, hplace] at hih
      exact hih

/-- With a single match the slot to update is that of the match, whatever its value size. -/
theorem scanChain_found {b : Bucket RecordBuffer} (rest : List (Entry RecordBuffer))
    (hrest : b.entries.drop n = rest) (hp : n ≤ p.entry) (hload : b.load p = some data)
    (hmatch : Matches rs newKey tag (b.tag p) data)
    (hunique : ∀ q d, b.load q = some d → Matches rs newKey tag (b.tag q) d → q = p)
    (st : AddScan) (hsize : st.oldValueSize = 0) :
    (scanChain rs newKey tag rest n st).entryToUpdate = some p ∧
      (scanChain rs newKey tag rest n st).oldValueSize =
        (rs.deserialize data.bytes).value.size ∧
      (scanChain rs newKey tag rest n st).isNewEntryAdded = st.isNewEntryAdded := by
  induction rest generalizing n st with
  | nil =>
    have hlen : b.chainLength ≤ n := List.drop_eq_nil_iff.mp hrest
    rw [load_eq_none_of_le (Nat.le_trans hlen hp)] at hload
    cases hload
  | cons entry rest ih =>
    have hentry : b.entries[n]? = some entry := by
      rw [← List.head?_drop, hrest, List.head?_cons]
    have hdrop : b.entries.drop (n + 1) = rest := by
      rw [← List.tail_drop, hrest, List.tail_cons]
    rcases Nat.eq_or_lt_of_le hp with heq | hlt
    · -- the match is in this entry; after it no slot matches, and the slot to update stays
      obtain ⟨pe, i⟩ := p
      obtain rfl : n = pe := heq
      rw [load_of_entry hentry] at hload
      rw [tag_of_entry hentry] at hmatch
      have hscan := scanEntry_found (n := n) (List.finRange numDataPerEntry) (List.mem_finRange i)
        hload hmatch
        (fun j _ d hd hm => by
          have hq := hunique ⟨n, j⟩ d ((load_of_entry hentry j).trans hd)
            (by rw [tag_of_entry hentry]; exact hm)
          exact (SlotIndex.mk.inj hq).2)
        { st with chainIndex := st.chainIndex + 1 }
      rw [scanChain]
      simp only [hscan]
      split_ifs with hzero hend
      · exact ⟨rfl, rfl, rfl⟩
      · simp at hend
      · have habsent : ∀ q d, n + 1 ≤ q.entry → b.load q = some d →
            ¬ Matches rs newKey tag (b.tag q) d := by
          intro q d hq hd hm
          have := hunique q d hd hm
          subst this
          exact absurd hq (Nat.not_succ_le_self n)
        rw [scanChain_absent rest hdrop habsent _ (not_not.mp hzero) (.inr rfl)]
        simp
    · have hother : ∀ (i : Fin numDataPerEntry) (d : RecordBuffer), entry.dataList[i] = some d →
          ¬ Matches rs newKey tag entry.tags[i] d := by
        intro i d hd hm
        have hq := hunique ⟨n, i⟩ d ((load_of_entry hentry i).trans hd)
          (by rw [tag_of_entry hentry]; exact hm)
        rw [← hq] at hlt
        exact absurd hlt (Nat.lt_irrefl n)
      have hscan := scanEntry_absent (n := n) (List.finRange numDataPerEntry)
        (fun i _ => hother i) { st with chainIndex := st.chainIndex + 1 }
      have hrestne : rest ≠ [] := by
        rintro rfl
        have hlen : b.chainLength ≤ n + 1 := List.drop_eq_nil_iff.mp hdrop
        rw [load_eq_none_of_le (Nat.le_trans hlen hlt)] at hload
        cases hload
      simp only [scanChain, hscan]
      rw [if_neg (not_not.mpr hsize), if_neg (by simp [hrestne])]
      exact ih hdrop hlt _ hsize

end Scan

end Bucket

end L4
