import L4.Library.Transition
import L4.SerializerRoundTrip

namespace L4
set_option autoImplicit true
open PrefixCode

namespace ReadWrite.ConcurrentSerialize
open SharedHashTable (bucketOf)
variable [Platform] {setting : Setting}

/-- A table and one `Serialize` of it. -/
structure System (setting : Setting) where
  table : WritableHashTable setting (EpochManager RecordBuffer)
  serialization : Serialization setting

inductive Event where
  | call (c : Call)
  | moveNext

/-- Other threads make complete calls between the turns of `Serialize`. -/
def System.next (s : System setting) : Event → Except Failure (System setting)
  | .call c => .ok { s with table := (s.table.call c).1 }
  | .moveNext => (s.serialization.turn s.table.hashTable).map fun next =>
    ⟨{ s.table with hashTable := next.1 }, next.2⟩

def Step (s : System setting) (event : Event) (s' : System setting) : Prop :=
  s.next event = .ok s'

omit [Platform] in
/-- The start of `Serialize`. -/
def initial (padding : UInt8 × UInt8) (t : WritableHashTable setting (EpochManager RecordBuffer)) :
    System setting where
  table := { t with
    hashTable := t.hashTable.updatePerfData [.set .recordsCountSavedFromSerializer 0] }
  serialization := .start padding

/-- An `Add` of a key that has been written finds the key in the table, or a free slot of its
bucket that the iterator has passed. -/
def Harmless (s : System setting) : Event → Prop
  | .call (.add key _) => ∀ r ∈ s.serialization.written, r.key = key →
      (∃ slot record, s.table.hashTable.load slot = some record ∧
        setting.recordSerializer.keyOf record = key) ∨
      ∃ slot : setting.Slot, slot.1.val = bucketOf setting key ∧
        s.table.hashTable.load slot = none ∧ ¬ s.serialization.iterator.cursor.Ahead slot
  | _ => True

/-- No key that has been written lies ahead of the iterator. -/
structure Invariant (padding : UInt8 × UInt8) (s : System setting) : Prop where
  valid : Valid s.table.hashTable
  place : s.serialization.iterator.At s.serialization.iterator.cursor
  inside : s.serialization.iterator.cursor.Inside s.table.hashTable
  ahead : ∀ slot record, s.serialization.iterator.cursor.Ahead slot →
    s.table.hashTable.load slot = some record →
    ∀ r ∈ s.serialization.written, r.key ≠ setting.recordSerializer.keyOf record
  distinct : s.serialization.written.Pairwise fun r r' => r.key ≠ r'.key
  validates : ∀ r ∈ s.serialization.written, setting.numBuckets ≠ 0 ∧
    setting.recordSerializer.Validates r.key r.value
  stream : s.serialization.stream = currentVersion :: setting.toObject padding ++
    (s.serialization.written.flatMap fun r => 1 :: r.serialize) ++
    if s.serialization.finished then [0] else []

theorem Harmless.not_ahead {s : System setting} {t' : SharedHashTable setting}
    (h : Harmless s (.call (.add key value)))
    (hahead : ∀ slot record, s.serialization.iterator.cursor.Ahead slot →
      s.table.hashTable.load slot = some record →
      ∀ r ∈ s.serialization.written, r.key ≠ setting.recordSerializer.keyOf record)
    (hp : Published setting.recordSerializer (s.table.hashTable.setAllocator allocator) record slot
      stat old t') (hkey : setting.recordSerializer.keyOf record = key)
    (hslot : s.serialization.iterator.cursor.Ahead slot) :
    ∀ r ∈ s.serialization.written, r.key ≠ key := by
  intro r hr hwritten
  cases hload : s.table.hashTable.load slot with
  | some replaced =>
    apply hahead slot replaced hslot hload r hr
    rw [hwritten, ← hkey]
    exact (hp.admits.1 replaced hload).symm
  | none =>
    rcases h r hr hwritten with ⟨slot', record', hload', hkey'⟩ | ⟨slot', hhome, hfree, hpassed⟩
    · obtain rfl := hp.admits.2 slot' record' hload' (hkey'.trans hkey.symm)
      rw [hload] at hload'
      cases hload'
    · -- the free slot is not before the first free slot, so the latter has been passed too
      have hbucket : slot'.1 = slot.1 := by
        apply Fin.ext
        rw [hhome, hp.home, hkey]
      rcases SlotIndex.before_trichotomy slot'.2 slot.2 with hbefore | heq | hbefore
      · obtain ⟨record', hload'⟩ := hp.first hload slot'.2 hbefore
        rw [← hbucket] at hload'
        exact absurd (hfree.symm.trans hload') (by simp)
      · rw [Prod.ext hbucket heq] at hpassed
        exact hpassed hslot
      · exact hpassed (Cursor.Ahead.trans hslot (.inr ⟨hbucket.symm, hbefore⟩))

theorem Harmless.ahead {s : System setting} {t' : SharedHashTable setting}
    (h : Harmless s (.call c))
    (hahead : ∀ slot record, s.serialization.iterator.cursor.Ahead slot →
      s.table.hashTable.load slot = some record →
      ∀ r ∈ s.serialization.written, r.key ≠ setting.recordSerializer.keyOf record)
    (he : Effect setting.recordSerializer s.table.hashTable c response t') (slot : setting.Slot)
    (record : RecordBuffer) (hslot : s.serialization.iterator.cursor.Ahead slot)
    (hload : t'.load slot = some record) :
    ∀ r ∈ s.serialization.written, r.key ≠ setting.recordSerializer.keyOf record := by
  cases he with
  | added key value allocator added addedSlot stat t' hrecord hp =>
    rw [SharedHashTable.load_updatePerfData, hp.stored.load, Function.update_apply] at hload
    split_ifs at hload with hsame
    · obtain rfl := Option.some.inj hload
      have hkey : setting.recordSerializer.keyOf added = key := by
        rw [RecordSerializer.keyOf, hrecord]
      rw [hkey]
      exact h.not_ahead hahead hp hkey (hsame ▸ hslot)
    · exact hahead slot record hslot hload
  | removed removed removedSlot t' hs hu =>
    rw [SharedHashTable.load_updatePerfData, hu.stored.load, Function.update_apply] at hload
    split_ifs at hload
    exact hahead slot record hslot hload
  | missed key hnone => exact hahead slot record hslot hload
  | got key value hget => exact hahead slot record hslot hload

theorem Invariant.call {padding : UInt8 × UInt8} {s : System setting} (h : Invariant padding s)
    (hc : Harmless s (.call c)) : Invariant padding { s with table := (s.table.call c).1 } := by
  have hvalid := WritableHashTable.valid_call h.valid c
  rcases WritableHashTable.call_cases h.valid.consistent c with ⟨-, response, he⟩ | hbuckets
  · exact ⟨hvalid, h.place, h.inside.mono (Effect.chainLength_le he), hc.ahead h.ahead he,
      h.distinct, h.validates, h.stream⟩
  · have hload := SharedHashTable.load_congr hbuckets
    refine ⟨hvalid, h.place, h.inside.mono fun i => ?_, ?_, h.distinct, h.validates, h.stream⟩
    · show _ ≤ (s.table.call c).1.hashTable.buckets[i].chainLength
      rw [hbuckets]
    · intro slot record hslot hrecord
      exact h.ahead slot record hslot (hload ▸ hrecord)

theorem Invariant.turn {padding : UInt8 × UInt8} {s : System setting} (h : Invariant padding s) :
    ∃ hashTable serialization,
      s.serialization.turn s.table.hashTable = .ok (hashTable, serialization) ∧
      Invariant padding ⟨{ s.table with hashTable }, serialization⟩ := by
  cases hfinished : s.serialization.finished with
  | true => exact ⟨s.table.hashTable, s.serialization, if_pos hfinished, h⟩
  | false =>
    obtain ⟨result, hresult, hturned⟩ := Serialization.turned h.place h.inside hfinished
    have hstream := h.stream
    rw [hfinished] at hstream
    cases hturned with
    | wrote slot record iterator hahead hload hfirst hat =>
      refine ⟨_, _, hresult, ?_⟩
      have hcursor := hat.cursor_eq
      have hwritten := h.ahead slot record hahead hload
      refine ⟨h.valid.congr rfl, ?_, ?_, ?_, ?_, ?_, ?_⟩
      · show iterator.At iterator.cursor
        rw [hcursor]
        exact hat
      · show Cursor.Inside _ iterator.cursor
        rw [hcursor]
        exact Cursor.inside_of_load hload
      · intro slot' record' hslot' hload' r hr
        have hafter : SlotBefore slot slot' := by
          have hslot' : iterator.cursor.Ahead slot' := hslot'
          rw [hcursor] at hslot'
          exact hslot'
        rcases List.mem_append.mp hr with hr | hr
        · exact h.ahead slot' record' (Cursor.Ahead.trans hahead hafter) hload' r hr
        · obtain rfl := List.mem_singleton.mp hr
          intro hkey
          obtain rfl := h.valid.consistent.unique slot slot' record record' hload hload' hkey
          exact slotBefore_irrefl slot hafter
      · refine List.pairwise_append.mpr ⟨h.distinct, List.pairwise_singleton _ _, ?_⟩
        intro r hr r' hr'
        obtain rfl := List.mem_singleton.mp hr'
        exact hwritten r hr
      · intro r hr
        rcases List.mem_append.mp hr with hr | hr
        · exact h.validates r hr
        · obtain rfl := List.mem_singleton.mp hr
          exact ⟨Setting.numBuckets_ne_zero slot.1, h.valid.validates slot record hload⟩
      · simp only [hstream, List.flatMap_append]
        simp
    | ended iterator hnone hat =>
      refine ⟨_, _, hresult, ?_⟩
      have hcursor := hat.cursor_eq
      refine ⟨h.valid, ?_, ?_, ?_, h.distinct, h.validates, ?_⟩
      · show iterator.At iterator.cursor
        rw [hcursor]
        exact hat
      · show Cursor.Inside _ iterator.cursor
        rw [hcursor]
        trivial
      · intro slot' record' hslot'
        have hslot' : iterator.cursor.Ahead slot' := hslot'
        rw [hcursor] at hslot'
        exact hslot'.elim
      · simp [hstream]

theorem invariant_initial (padding : UInt8 × UInt8)
    {t : WritableHashTable setting (EpochManager RecordBuffer)} (h : Valid t.hashTable) :
    Invariant padding (initial padding t) := by
  have hcursor : (Iterator.create : Iterator setting).cursor = .start :=
    Iterator.At.cursor_eq (c := .start) ⟨rfl, rfl⟩
  refine ⟨h.congr rfl, ?_, ?_, ?_, .nil, ?_, ?_⟩
  · show (Iterator.create : Iterator setting).At Iterator.create.cursor
    rw [hcursor]
    exact ⟨rfl, rfl⟩
  · show Cursor.Inside _ (Iterator.create : Iterator setting).cursor
    rw [hcursor]
    trivial
  · intro slot record _ _ r hr
    cases hr
  · intro r hr
    cases hr
  · simp [initial, Serialization.start]

theorem Invariant.step {padding : UInt8 × UInt8} {s s' : System setting}
    (h : Invariant padding s) (hstep : Transition.Guarded Harmless Step s event s') :
    Invariant padding s' := by
  obtain ⟨hharmless, hnext⟩ := hstep
  cases event with
  | call c =>
    obtain rfl := Except.ok.inj hnext
    exact h.call hharmless
  | moveNext =>
    obtain ⟨hashTable, serialization, hturn, hinv⟩ := h.turn
    rw [Step, System.next, hturn] at hnext
    obtain rfl := Except.ok.inj hnext
    exact hinv

/-- As long as the calls of other threads are harmless, the stream of `Serialize` contains no key
twice, no turn throws, and the finished stream is loaded. -/
theorem stream_loads (allocator : Allocator) (epochManager : EpochManager RecordBuffer)
    (calls : List Call) (padding : UInt8 × UInt8) {events : List Event} {s : System setting}
    (hrun : Transition.Run (Transition.Guarded Harmless Step)
      (initial padding ((WritableHashTable.create setting allocator epochManager).run calls).1)
      events s) :
    (s.serialization.written.Pairwise fun r r' => r.key ≠ r'.key) ∧
      (∃ next, s.serialization.turn s.table.hashTable = .ok next) ∧
      (s.serialization.finished = true →
        s.serialization.stream =
          format padding setting (s.serialization.written.map fun r => (1, r)) ∧
        ∀ allocator' rest, ∃ t,
          Deserializer.deserialize allocator' ⟨s.serialization.stream ++ rest, false⟩ =
            .ok (⟨setting, t⟩, ⟨rest, false⟩)) := by
  have h : Invariant padding s := hrun.invariant (fun _ _ _ h hstep => h.step hstep)
    (invariant_initial padding (WritableHashTable.valid_run
      (t := .create setting allocator epochManager) (valid_create allocator) calls))
  obtain ⟨hashTable, serialization, hturn, -⟩ := h.turn
  refine ⟨h.distinct, ⟨_, hturn⟩, fun hfinished => ?_⟩
  have hstream : s.serialization.stream =
      format padding setting (s.serialization.written.map fun r => (1, r)) := by
    rw [h.stream, hfinished, format, marked, List.flatMap_map]
    simp
  refine ⟨hstream, fun allocator' rest => ?_⟩
  have hrecords : (s.serialization.written.map fun r => ((1 : UInt8), r)).map Prod.snd =
      s.serialization.written := by
    rw [List.map_map]
    exact List.map_id _
  have hmarks : ∀ item ∈ s.serialization.written.map fun r => ((1 : UInt8), r), item.1 ≠ 0 := by
    simp
  obtain ⟨t, hload, -⟩ := Deserializer.deserialize_format padding allocator' rest hmarks
    (by simpa using h.validates) (hrecords.symm ▸ h.distinct)
  rw [hstream]
  exact ⟨t, hload⟩

/-- The state after the events, unless one of them throws. -/
def System.after (s : System setting) : List Event → Option (System setting)
  | [] => some s
  | event :: events => (s.next event).toOption.bind fun s' => after s' events

theorem run_of_after {ok : System setting → Event → Prop} {s s' : System setting}
    {events : List Event} (h : s.after events = some s')
    (hok : ∀ event ∈ events, ∀ s, ok s event) :
    Transition.Run (Transition.Guarded ok Step) s events s' := by
  induction events generalizing s with
  | nil =>
    obtain rfl := Option.some.inj h
    exact .nil
  | cons event events ih =>
    rw [System.after] at h
    cases hnext : s.next event with
    | error e =>
      rw [hnext] at h
      cases h
    | ok s₁ =>
      rw [hnext] at h
      exact .cons ⟨hok event (by simp) s, hnext⟩
        (ih h fun event hevent => hok event (List.mem_cons_of_mem _ hevent))

omit [Platform] in
/-- The key is removed after the iterator has passed it, its slot is taken by another key, and it
comes back in a slot ahead of the iterator. -/
theorem key_written_twice :
    let platform : Platform := ⟨fun _ => (7, 0), 8, 64⟩
    let key : Key := ⟨[], by decide⟩
    let value : Value := ⟨[], by decide⟩
    let table := (WritableHashTable.create {} ⟨0, []⟩
      ⟨0, ⟨0, 0, [0], by decide⟩, ⟨[.empty], 0⟩⟩).run [.add key value]
    ∃ s : System {}, Transition.Run Step (initial (0, 0) table.1) [.moveNext, .call (.remove key),
        .call (.add ⟨[1], by decide⟩ value), .call (.add key value), .moveNext, .moveNext] s ∧
      s.serialization.finished = true ∧
      ¬ (s.serialization.written.Pairwise fun r r' => r.key ≠ r'.key) ∧
      Deserializer.deserialize ⟨0, []⟩ ⟨s.serialization.stream, false⟩ = .error
        (.runtimeException "RegisterAction() should not be called from the serializer.") := by
  intro platform key value table
  have hcheck : ((initial (0, 0) table.1).after [.moveNext, .call (.remove key),
      .call (.add ⟨[1], by decide⟩ value), .call (.add key value), .moveNext, .moveNext]).any
      (fun s => s.serialization.finished &&
        decide (¬ s.serialization.written.Pairwise fun r r' => r.key ≠ r'.key) &&
        match Deserializer.deserialize ⟨0, []⟩ ⟨s.serialization.stream, false⟩ with
        | .error e => decide (e = .runtimeException
            "RegisterAction() should not be called from the serializer.")
        | .ok _ => false) = true := by
    decide +kernel
  obtain ⟨s, hafter, hs⟩ := (Option.any_eq_true _ _).mp hcheck
  rw [Bool.and_eq_true, Bool.and_eq_true] at hs
  obtain ⟨⟨hfinished, htwice⟩, hload⟩ := hs
  have hrun : Transition.Run (Transition.Guarded (fun _ _ => True) Step) _ _ _ :=
    run_of_after hafter fun _ _ _ => trivial
  refine ⟨s, hrun.mono fun _ _ _ h => h.2, hfinished, of_decide_eq_true htwice, ?_⟩
  cases hresult : Deserializer.deserialize ⟨0, []⟩ ⟨s.serialization.stream, false⟩ with
  | error e =>
    rw [hresult] at hload
    rw [of_decide_eq_true hload]
  | ok loaded =>
    rw [hresult] at hload
    cases hload

omit [Platform] in
/-- The key is removed after the iterator has passed it and comes back in the slot that it had. -/
theorem stream_loads_of_readded :
    let platform : Platform := ⟨fun _ => (7, 0), 8, 64⟩
    let key : Key := ⟨[], by decide⟩
    let value : Value := ⟨[], by decide⟩
    let table := (WritableHashTable.create {} ⟨0, []⟩
      ⟨0, ⟨0, 0, [0], by decide⟩, ⟨[.empty], 0⟩⟩).run [.add key value]
    ∃ s t, Transition.Run (Transition.Guarded Harmless Step) (initial (0, 0) table.1)
        [.moveNext, .call (.remove key), .call (.add key value), .moveNext] s ∧
      Deserializer.deserialize ⟨0, []⟩ ⟨s.serialization.stream ++ [], false⟩ =
        .ok (⟨{}, t⟩, ⟨[], false⟩) := by
  intro platform key value table
  have hcheck : ((initial (0, 0) table.1).after [.moveNext, .call (.remove key)]).any (fun s =>
      decide (s.table.hashTable.load (⟨0, by decide⟩, ⟨0, 0⟩) = none) &&
      decide (¬ s.serialization.iterator.cursor.Ahead (⟨0, by decide⟩, ⟨0, 0⟩)) &&
      (s.after [.call (.add key value)]).any fun s => (s.after [.moveNext]).any fun s =>
        s.serialization.finished) = true := by
    decide +kernel
  obtain ⟨s₁, hafter₁, hs₁⟩ := (Option.any_eq_true _ _).mp hcheck
  rw [Bool.and_eq_true, Bool.and_eq_true] at hs₁
  obtain ⟨⟨hfree, hpassed⟩, hrest⟩ := hs₁
  obtain ⟨s₂, hafter₂, hs₂⟩ := (Option.any_eq_true _ _).mp hrest
  obtain ⟨s₃, hafter₃, hfinished⟩ := (Option.any_eq_true _ _).mp hs₂
  have hhome : 0 = bucketOf {} key := by decide +kernel
  have hharmless : Harmless s₁ (.call (.add key value)) := by
    intro r _ _
    exact .inr ⟨(⟨0, by decide⟩, ⟨0, 0⟩), hhome, of_decide_eq_true hfree,
      of_decide_eq_true hpassed⟩
  have hadd : Step s₁ (.call (.add key value)) s₂ := congrArg Except.ok (Option.some.inj hafter₂)
  have hrun₁ : Transition.Run (Transition.Guarded Harmless Step) (initial (0, 0) table.1)
      [.moveNext, .call (.remove key)] s₁ := run_of_after hafter₁ fun event hevent s => by
    rcases List.mem_pair.mp hevent with rfl | rfl <;> trivial
  have hrun₃ : Transition.Run (Transition.Guarded Harmless Step) s₂ [.moveNext] s₃ :=
    run_of_after hafter₃ fun event hevent s => by
      obtain rfl := List.mem_singleton.mp hevent
      trivial
  have hrun := hrun₁.append (.cons ⟨hharmless, hadd⟩ hrun₃)
  obtain ⟨-, -, hloads⟩ := stream_loads ⟨0, []⟩ ⟨0, ⟨0, 0, [0], by decide⟩, ⟨[.empty], 0⟩⟩
    [.add key value] (0, 0) hrun
  obtain ⟨t, hload⟩ := (hloads hfinished).2 ⟨0, []⟩ []
  exact ⟨s₃, t, hrun, hload⟩

end ReadWrite.ConcurrentSerialize

end L4
