import L4.Library.Transition
import L4.ReadWriteRefinement
import L4.TableIterator

namespace L4
set_option autoImplicit true

namespace ReadWrite.TableIteration
open Transition (Run Guarded)
variable [Platform] {setting : Setting}

/-- A table and an iterator over it. -/
structure System (setting : Setting) where
  table : WritableHashTable setting (EpochManager RecordBuffer)
  iterator : Iterator setting

/-- A call of the table, or one of `MoveNext` with its result and what `GetKey` and `GetValue` give
after it. -/
inductive Label where
  | call (c : Call)
  | moveNext (more : Bool) (record : Except Failure Record)

def System.getRecord (s : System setting) : Except Failure Record :=
  s.iterator.getRecord setting.recordSerializer

/-- `MoveNext` between complete calls of other threads. -/
inductive Step : System setting → Label → System setting → Prop
  | call (c : Call) : Step s (.call c) { s with table := (s.table.call c).1 }
  | moveNext (iterator : Iterator setting)
      (hmove : s.iterator.moveNext s.table.hashTable = (more, iterator)) :
      Step s (.moveNext more (iterator.getRecord setting.recordSerializer))
        { s with iterator }

theorem Step.next {s : System setting} (hmore : (s.iterator.moveNext s.table.hashTable).1 = more)
    (hrecord :
      (s.iterator.moveNext s.table.hashTable).2.getRecord setting.recordSerializer = record) :
    Step s (.moveNext more record)
      { s with iterator := (s.iterator.moveNext s.table.hashTable).2 } := by
  subst hmore hrecord
  exact .moveNext _ rfl

omit [Platform] in
/-- The records that the calls of `MoveNext` have returned. -/
def returned (labels : List Label) : List Record :=
  labels.filterMap fun
    | .moveNext true (.ok record) => some record
    | _ => none

/-- The key is in the table. -/
def Present (key : Key) (s : System setting) : Prop :=
  ∃ slot record, s.table.hashTable.load slot = some record ∧
    setting.recordSerializer.keyOf record = key

/-- The table is consistent and the iterator stands at a slot of it, or at one of its ends. -/
structure Placed (s : System setting) (c : Cursor setting) : Prop where
  consistent : s.table.hashTable.Consistent setting.recordSerializer
  place : s.iterator.At c
  inside : c.Inside s.table.hashTable

/-- What a call of `MoveNext` does and returns. -/
inductive MovedTo (s : System setting) (c : Cursor setting) :
    Bool → Except Failure Record → System setting → Prop
  | found (slot : setting.Slot) (record : RecordBuffer) (iterator : Iterator setting)
      (hahead : c.Ahead slot) (hload : s.table.hashTable.load slot = some record)
      (hfirst : ∀ slot', c.Ahead slot' → SlotBefore slot' slot →
        s.table.hashTable.load slot' = none)
      (hplaced : Placed { s with iterator } (.slot slot)) :
      MovedTo s c true (.ok (setting.recordSerializer.deserialize record.bytes))
        { s with iterator }
  | ended (iterator : Iterator setting)
      (hnone : ∀ slot, c.Ahead slot → s.table.hashTable.load slot = none)
      (hplaced : Placed { s with iterator } .finish) :
      MovedTo s c false
        (.error (.runtimeException "HashTableIterator is not correctly used.")) { s with iterator }

theorem Placed.moveNext {s s' : System setting} (h : Placed s c)
    (hs : Step s (.moveNext more record) s') : MovedTo s c more record s' := by
  cases hs with
  | moveNext iterator hmove =>
    have hmoved := Iterator.moved_moveNext h.place h.inside
    rw [hmove] at hmoved
    cases hmoved with
    | found slot record _ hahead hload hfirst hat hrecord =>
      rw [hat.getRecord_slot hrecord]
      exact .found slot record iterator hahead hload hfirst
        ⟨h.consistent, hat, Cursor.inside_of_load hload⟩
    | ended _ hnone hat =>
      rw [hat.getRecord_finish]
      exact .ended iterator hnone ⟨h.consistent, hat, trivial⟩

theorem Placed.call {s : System setting} (h : Placed s c) (call : Call) :
    Placed { s with table := (s.table.call call).1 } c := by
  rcases WritableHashTable.call_cases h.consistent call with ⟨-, response, he⟩ | hbuckets
  · exact ⟨he.consistent h.consistent, h.place, h.inside.mono he.chainLength_le⟩
  · refine ⟨h.consistent.congr (SharedHashTable.load_congr hbuckets)
      (SharedHashTable.tag_congr hbuckets), h.place, h.inside.mono ?_⟩
    intro i
    exact Nat.le_of_eq (by rw [hbuckets])

theorem slot_call {s : System setting} (h : Placed s c) (call : Call)
    (hslot : s.table.hashTable.load slot = some record)
    (hkey : setting.recordSerializer.keyOf record = key)
    (hslot' : (s.table.call call).1.hashTable.load slot' = some record')
    (hkey' : setting.recordSerializer.keyOf record' = key) : slot' = slot := by
  have hunique := h.consistent.unique
  rcases WritableHashTable.call_cases h.consistent call with ⟨-, response, he⟩ | hbuckets
  · generalize (s.table.call call).1.hashTable = t' at he hslot'
    cases he with
    | added addedKey value allocator added addedSlot stat t' hrecord hp =>
      rw [SharedHashTable.load_updatePerfData, hp.stored.load, Function.update_apply] at hslot'
      split_ifs at hslot' with hsame
      · obtain rfl := Option.some.inj hslot'
        rw [hsame]
        exact (hp.admits.2 slot record hslot (hkey.trans hkey'.symm)).symm
      · exact hunique slot' slot record' record hslot' hslot (hkey'.trans hkey.symm)
    | removed removed removedSlot t' hs hu =>
      rw [SharedHashTable.load_updatePerfData, hu.stored.load, Function.update_apply] at hslot'
      split_ifs at hslot'
      exact hunique slot' slot record' record hslot' hslot (hkey'.trans hkey.symm)
    | missed removedKey hnone =>
      exact hunique slot' slot record' record hslot' hslot (hkey'.trans hkey.symm)
    | got readKey value hget =>
      exact hunique slot' slot record' record hslot' hslot (hkey'.trans hkey.symm)
  · rw [SharedHashTable.load_congr hbuckets] at hslot'
    exact hunique slot' slot record' record hslot' hslot (hkey'.trans hkey.symm)

/-- Between two calls of an iteration over a table that keeps a key: the key is nowhere but in its
slot, and it has been returned once or not at all, as the iterator has passed the slot or not. -/
structure Invariant (key : Key) (slot : setting.Slot) (past : List Label) (s : System setting) :
    Prop where
  placed : ∃ c, Placed s c ∧
    ((returned past).map Record.key).count key = if c.Ahead slot then 0 else 1
  only : ∀ slot' record, s.table.hashTable.load slot' = some record →
    setting.recordSerializer.keyOf record = key → slot' = slot

omit [Platform] in
theorem returned_snoc (past : List Label) (label : Label) :
    returned (past ++ [label]) = returned past ++ returned [label] :=
  List.filterMap_append

theorem Invariant.step {s s' : System setting} (h : Invariant key slot past s)
    (hs : Guarded (fun s _ => Present key s) Step s label s') :
    Invariant key slot (past ++ [label]) s' := by
  obtain ⟨⟨slot', record, hload, hkey⟩, hs⟩ := hs
  obtain ⟨c, hplaced, hcount⟩ := h.placed
  obtain rfl := h.only slot' record hload hkey
  cases label with
  | call call =>
    cases hs with
    | call _ =>
      refine ⟨⟨c, hplaced.call call, ?_⟩, ?_⟩
      · rw [returned_snoc]
        simpa [returned] using hcount
      · intro slot record' hload' hkey'
        exact slot_call hplaced call hload hkey hload' hkey'
  | moveNext more result =>
    cases hplaced.moveNext hs with
    | found found record' iterator hahead hload' hfirst hplaced' =>
      refine ⟨⟨_, hplaced', ?_⟩, h.only⟩
      have hother (hne : found ≠ slot') :
          setting.recordSerializer.keyOf record' ≠ key := by
        intro heq
        exact hne (h.only found record' hload' heq)
      have hone : List.count key [setting.recordSerializer.keyOf record'] =
          if found = slot' then 1 else 0 := by
        split_ifs with heq
        · rw [heq] at hload'
          obtain rfl := Option.some.inj (hload'.symm.trans hload)
          rw [hkey]
          simp
        · exact List.count_eq_zero_of_not_mem (by simpa using (hother heq).symm)
      rw [returned_snoc, List.map_append, List.count_append, hcount]
      refine (congrArg _ hone).trans ?_
      rcases slotBefore_trichotomy found slot' with hbefore | rfl | hafter
      · have hpassed : (Cursor.slot found).Ahead slot' := hbefore
        have hne : found ≠ slot' := by
          rintro rfl
          exact slotBefore_irrefl _ hbefore
        rw [if_pos (Cursor.Ahead.trans hahead hbefore), if_pos hpassed, if_neg hne]
      · have hpassed : ¬ (Cursor.slot found).Ahead found := slotBefore_irrefl found
        rw [if_pos hahead, if_neg hpassed, if_pos rfl]
      · have hpassed : ¬ c.Ahead slot' := by
          intro hc
          rw [hfirst slot' hc hafter] at hload
          cases hload
        have hpassed' : ¬ (Cursor.slot found).Ahead slot' :=
          fun hbefore => slotBefore_irrefl found (SlotBefore.trans hbefore hafter)
        have hne : found ≠ slot' := by
          rintro rfl
          exact slotBefore_irrefl _ hafter
        rw [if_neg hpassed, if_neg hpassed', if_neg hne]
    | ended iterator hnone hplaced' =>
      refine ⟨⟨_, hplaced', ?_⟩, h.only⟩
      have hpassed : ¬ c.Ahead slot' := by
        intro hc
        rw [hnone slot' hc] at hload
        cases hload
      rw [if_neg hpassed] at hcount
      rw [returned_snoc]
      simpa [returned, Cursor.Ahead] using hcount

omit [Platform] in
/-- The iterator has been created or reset. -/
def Started (it : Iterator setting) : Prop :=
  it = .create ∨ ∃ it' : Iterator setting, it = it'.reset

theorem Placed.start {s : System setting}
    (h : s.table.hashTable.Consistent setting.recordSerializer) (hstart : Started s.iterator) :
    Placed s .start := by
  refine ⟨h, ?_, trivial⟩
  rcases hstart with hcreate | ⟨it, hreset⟩
  · rw [hcreate]
    exact ⟨rfl, rfl⟩
  · rw [hreset]
    exact ⟨rfl, rfl⟩

theorem Placed.step {s s' : System setting} (h : Placed s c) (hs : Step s label s') :
    ∃ c', Placed s' c' := by
  cases label with
  | call call =>
    cases hs with
    | call _ => exact ⟨c, h.call call⟩
  | moveNext more record =>
    cases h.moveNext hs with
    | found slot record iterator hahead hload hfirst hplaced => exact ⟨_, hplaced⟩
    | ended iterator hnone hplaced => exact ⟨_, hplaced⟩

theorem placed_of_run {s s' : System setting} (h : Placed s c) (hrun : Run Step s labels s') :
    ∃ c', Placed s' c' :=
  hrun.invariant (I := fun s => ∃ c', Placed s c') (fun _ _ _ ⟨_, h⟩ hs => h.step hs) ⟨c, h⟩

/-- A key that stays in the table is returned once. -/
theorem stable_key_returned_once {s s' : System setting} (h : Placed s .start)
    (hrun : Run (Guarded (fun s _ => Present key s) Step) s
      (during ++ [.moveNext false record]) s') :
    ((returned during).map Record.key).count key = 1 := by
  obtain ⟨s₁, hduring, hlast⟩ := hrun.split
  cases hlast with
  | cons hs _ =>
    obtain ⟨⟨slot₁, record₁, hload₁, hkey₁⟩, hmove⟩ := hs
    have hpresent : Present key s := by
      cases hduring with
      | nil => exact ⟨slot₁, record₁, hload₁, hkey₁⟩
      | cons hs _ => exact hs.1
    obtain ⟨slot, record₀, hload, hkey⟩ := hpresent
    have hstart : Invariant key slot [] s := by
      refine ⟨⟨.start, h, rfl⟩, ?_⟩
      intro slot' record' hload' hkey'
      exact h.consistent.unique slot' slot record' record₀ hload' hload (hkey'.trans hkey.symm)
    have hinv : Invariant key slot during s₁ :=
      hduring.history (I := Invariant key slot) (fun _ _ _ _ h hs => h.step hs) hstart
    obtain ⟨c, hplaced, hcount⟩ := hinv.placed
    obtain rfl := hinv.only slot₁ record₁ hload₁ hkey₁
    cases hplaced.moveNext hmove with
    | ended iterator hnone _ =>
      have hpassed : ¬ c.Ahead slot₁ := by
        intro hc
        rw [hnone slot₁ hc] at hload₁
        cases hload₁
      rw [hcount, if_neg hpassed]

theorem returned_linked {s s' : System setting} (h : Placed s c)
    (hs : Step s (.moveNext true record) s') :
    ∃ slot r, s.table.hashTable.load slot = some r ∧
      record = .ok (setting.recordSerializer.deserialize r.bytes) := by
  cases h.moveNext hs with
  | found slot r iterator hahead hload hfirst hplaced => exact ⟨slot, r, hload, rfl⟩

theorem returned_ahead {s s' : System setting} (h : Placed s c) (hrun : Run Step s labels s')
    (hturns : ∀ label ∈ labels, ∃ record, label = .moveNext true record) :
    ∃ c', Placed s' c' ∧ s'.table = s.table ∧ labels.length = (returned labels).length ∧
      (s.table.hashTable.recordsAhead c).map (setting.recordSerializer.deserialize ·.bytes) =
        returned labels ++ (s.table.hashTable.recordsAhead c').map
          (setting.recordSerializer.deserialize ·.bytes) := by
  induction hrun generalizing c with
  | nil => exact ⟨c, h, rfl, rfl, rfl⟩
  | cons hs hrest ih =>
    obtain ⟨record, rfl⟩ := hturns _ List.mem_cons_self
    cases h.moveNext hs with
    | found slot r iterator hahead hload hfirst hplaced =>
      obtain ⟨c', hplaced', htable, hlength, hrecords⟩ :=
        ih hplaced fun label hmem => hturns label (List.mem_cons_of_mem _ hmem)
      refine ⟨c', hplaced', htable, ?_, ?_⟩
      · simp [returned, hlength]
      · rw [SharedHashTable.recordsAhead_found hahead hload hfirst, List.map_cons, hrecords]
        rfl

/-- Once there are no more writes, the iteration ends within as many calls as there are records. -/
theorem iteration_ends {s s' : System setting} (h : Placed s c) (hrun : Run Step s labels s')
    (hturns : ∀ label ∈ labels, ∃ more record, label = .moveNext more record)
    (hmany : s.table.hashTable.records.length < labels.length) :
    ∃ record, .moveNext false record ∈ labels := by
  by_contra hnone
  have hmore : ∀ label ∈ labels, ∃ record, label = .moveNext true record := by
    intro label hmem
    obtain ⟨more, record, rfl⟩ := hturns label hmem
    cases more with
    | true => exact ⟨record, rfl⟩
    | false => exact absurd ⟨record, hmem⟩ hnone
  obtain ⟨c', -, -, hlength, hrecords⟩ := returned_ahead h hrun hmore
  have hle := SharedHashTable.length_recordsAhead_le s.table.hashTable c
  have hcount := congrArg List.length hrecords
  rw [List.length_map, List.length_append] at hcount
  omega

/-- At the end of the table every further `MoveNext` returns `false`, and the iterator gives
nothing. -/
def Ended (s : System setting) : Prop :=
  Placed s .finish

theorem Ended.step {s s' : System setting} (h : Ended s) (hs : Step s label s') :
    Ended s' ∧ ∀ more record, label = .moveNext more record → more = false ∧
      record = .error (.runtimeException "HashTableIterator is not correctly used.") := by
  cases label with
  | call call =>
    cases hs with
    | call _ => exact ⟨Placed.call h call, fun _ _ heq => by cases heq⟩
  | moveNext more record =>
    cases Placed.moveNext h hs with
    | found slot r iterator hahead hload hfirst hplaced => exact hahead.elim
    | ended iterator hnone hplaced =>
      exact ⟨hplaced, fun _ _ heq => by cases heq; exact ⟨rfl, rfl⟩⟩

theorem Ended.run {s s' : System setting} (h : Ended s) (hrun : Run Step s labels s') :
    Ended s' ∧ ∀ more record, .moveNext more record ∈ labels → more = false ∧
      record = .error (.runtimeException "HashTableIterator is not correctly used.") := by
  induction hrun with
  | nil => exact ⟨h, fun _ _ hmem => by cases hmem⟩
  | cons hs hrest ih =>
    obtain ⟨hended, hfirst⟩ := h.step hs
    obtain ⟨hlast, hrest⟩ := ih hended
    refine ⟨hlast, fun more record hmem => ?_⟩
    rcases List.mem_cons.mp hmem with heq | hmem
    · exact hfirst more record heq.symm
    · exact hrest more record hmem

theorem ended_of_moveNext {s s' : System setting} (h : Placed s c)
    (hs : Step s (.moveNext false record) s') : Ended s' := by
  cases h.moveNext hs with
  | ended iterator hnone hplaced => exact hplaced

/-- An iteration that starts at a new or reset iterator. A key that is in the table until
`MoveNext` returns `false` is returned exactly once, every record returned was in the table then,
without further writes the iteration comes to its end, where it stays, and without any writes it
returns the records of the table, slot after slot. -/
theorem iteration_complete (s : System setting)
    (hconsistent : s.table.hashTable.Consistent setting.recordSerializer)
    (hstart : Started s.iterator) :
    (∀ key during last s', Run (Guarded (fun s _ => Present key s) Step) s
        (during ++ [.moveNext false last]) s' →
      ((returned during).map Record.key).count key = 1) ∧
    (∀ past s₁ record s₂, Run Step s past s₁ → Step s₁ (.moveNext true record) s₂ →
      ∃ slot r, s₁.table.hashTable.load slot = some r ∧
        record = .ok (setting.recordSerializer.deserialize r.bytes)) ∧
    (∀ past s₁ turns s₂, Run Step s past s₁ → Run Step s₁ turns s₂ →
      (∀ label ∈ turns, ∃ more record, label = .moveNext more record) →
      s₁.table.hashTable.records.length < turns.length →
      ∃ record, .moveNext false record ∈ turns) ∧
    (∀ past last s₁ rest s₂, Run Step s (past ++ [.moveNext false last]) s₁ →
      Run Step s₁ rest s₂ →
      s₂.getRecord = .error (.runtimeException "HashTableIterator is not correctly used.") ∧
      ∀ more record, .moveNext more record ∈ rest → more = false ∧
        record = .error (.runtimeException "HashTableIterator is not correctly used.")) ∧
    ∀ turns last s', Run Step s (turns ++ [.moveNext false last]) s' →
      (∀ label ∈ turns, ∃ record, label = .moveNext true record) →
      returned turns =
        s.table.hashTable.records.map (setting.recordSerializer.deserialize ·.bytes) := by
  have hplaced := Placed.start hconsistent hstart
  refine ⟨?_, ?_, ?_, ?_, ?_⟩
  · intro key during last s' hrun
    exact stable_key_returned_once hplaced hrun
  · intro past s₁ record s₂ hpast hs
    obtain ⟨c, hplaced⟩ := placed_of_run hplaced hpast
    exact returned_linked hplaced hs
  · intro past s₁ turns s₂ hpast hrun hturns hmany
    obtain ⟨c, hplaced⟩ := placed_of_run hplaced hpast
    exact iteration_ends hplaced hrun hturns hmany
  · intro past last s₁ rest s₂ hpast hrest
    obtain ⟨s₀, hpast, hlast⟩ := hpast.split
    obtain ⟨c, hplaced⟩ := placed_of_run hplaced hpast
    cases hlast with
    | cons hs hnil =>
      cases hnil
      obtain ⟨hended, hturns⟩ := (ended_of_moveNext hplaced hs).run hrest
      exact ⟨hended.place.getRecord_finish _, hturns⟩
  · intro turns last s' hrun hturns
    obtain ⟨s₁, hturn, hlast⟩ := hrun.split
    obtain ⟨c, hplaced, htable, -, hrecords⟩ := returned_ahead hplaced hturn hturns
    cases hlast with
    | cons hs _ =>
      cases hplaced.moveNext hs with
      | ended iterator hnone _ =>
        rw [htable] at hnone
        rw [SharedHashTable.recordsAhead_start,
          SharedHashTable.recordsAhead_ended hnone] at hrecords
        simpa using hrecords.symm

omit [Platform] in
/-- The key that the iterator has passed is removed, and the one ahead of it is overwritten. -/
theorem iteration_complete_of_overwrite :
    let platform : Platform := ⟨fun _ => (7, 0), 8, 64⟩
    let empty : Key := ⟨[], by decide⟩
    let key : Key := ⟨[5], by decide⟩
    let calls := [.add empty ⟨[], by decide⟩, .add key ⟨[6], by decide⟩]
    let table := ((WritableHashTable.create {} ⟨0, []⟩
      ⟨0, ⟨0, 0, [0], by decide⟩, ⟨[.empty], 0⟩⟩).run calls).1
    let during : List Label := [.moveNext true (.ok ⟨empty, ⟨[], by decide⟩⟩),
      .call (.remove empty), .call (.add key ⟨[9], by decide⟩),
      .moveNext true (.ok ⟨key, ⟨[9], by decide⟩⟩)]
    (∃ last s', Run (Guarded (fun s _ => Present key s) Step)
      (⟨table, .create⟩ : System {}) (during ++ [.moveNext false last]) s') ∧
    ((returned during).map Record.key).count key = 1 := by
  intro platform empty key calls table during
  let slot : Setting.Slot {} := ⟨⟨0, by decide⟩, 0, 1⟩
  have hcalls : ∀ c ∈ calls, c.Accepted {} := by decide
  have hrefines := WritableHashTable.run_refines (t := WritableHashTable.create {} ⟨0, []⟩
    ⟨0, ⟨0, 0, [0], by decide⟩, ⟨[.empty], 0⟩⟩) (Refines.create _ _) (by decide) hcalls
  have hconsistent : table.hashTable.Consistent ({} : Setting).recordSerializer :=
    hrefines.1.consistent
  let old : RecordBuffer := ⟨1, [1, 0, 1, 0, 0, 0, 5, 6]⟩
  let new : RecordBuffer := ⟨2, [1, 0, 1, 0, 0, 0, 5, 9]⟩
  have hrun : ∃ last s', Run (Guarded (fun s _ => Present key s) Step)
      (⟨table, .create⟩ : System {}) (during ++ [.moveNext false last]) s' :=
    ⟨_, _,
      .cons ⟨⟨slot, old, by decide +kernel, by decide⟩,
        .next (by decide +kernel) (by decide +kernel)⟩
      (.cons ⟨⟨slot, old, by decide +kernel, by decide⟩, .call _⟩
      (.cons ⟨⟨slot, old, by decide +kernel, by decide⟩, .call _⟩
      (.cons ⟨⟨slot, new, by decide +kernel, by decide⟩,
        .next (by decide +kernel) (by decide +kernel)⟩
      (.cons ⟨⟨slot, new, by decide +kernel, by decide⟩,
        .next (by decide +kernel) rfl⟩ .nil))))⟩
  obtain ⟨last, s', h⟩ := hrun
  exact ⟨⟨last, s', h⟩, (iteration_complete _ hconsistent (.inl rfl)).1 _ _ _ _ h⟩

end ReadWrite.TableIteration

end L4
