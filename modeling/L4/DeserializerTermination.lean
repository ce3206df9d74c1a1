import L4.DeserializerFormat

namespace L4.ReadWrite.Deserializer
set_option autoImplicit true
open SharedHashTable (Filled)
variable [Platform] {setting : Setting}

namespace Loading

/-- The loop without a bound: it leaves after the given number of iterations, with the locals at
its end or with what the last of them has thrown. -/
inductive Leaves : Nat → Loading setting → Except Failure (Loading setting) → Prop
  | ended (hmore : l.hasMoreData = false) : Leaves 0 l (.ok l)
  | threw (hmore : l.hasMoreData = true) (hadd : l.addRecord = .error e) : Leaves 1 l (.error e)
  | turned (hmore : l.hasMoreData = true) (hadd : l.addRecord = .ok l₁)
      (hrest : Leaves iterations l₁.readFlag.countLoaded result) :
      Leaves (iterations + 1) l result

theorem leaves_of_loop {l : Loading setting} (h : loop turns l = some result) :
    ∃ iterations, iterations ≤ turns ∧ Leaves iterations l result := by
  induction turns generalizing l with
  | zero => cases h
  | succ turns ih =>
    rw [loop] at h
    cases hmore : l.hasMoreData with
    | false =>
      rw [hmore] at h
      obtain rfl := Option.some.inj h
      exact ⟨0, Nat.zero_le _, .ended hmore⟩
    | true =>
      rw [hmore, if_pos rfl] at h
      cases hadd : l.addRecord with
      | error e =>
        rw [hadd] at h
        obtain rfl := Option.some.inj h
        exact ⟨1, Nat.le_add_left 1 turns, .threw hmore hadd⟩
      | ok l₁ =>
        rw [hadd] at h
        obtain ⟨iterations, hle, hrest⟩ := ih h
        exact ⟨iterations + 1, Nat.succ_le_succ hle, .turned hmore hadd hrest⟩

/-- The locals before the loop, after the first byte that says whether there is a record. -/
def start (setting : Setting) (allocator : Allocator) (stream : IStream) : Loading setting :=
  readFlag ⟨stream, ⟨.create setting allocator, {}⟩, [], [], false⟩

end Loading

omit [Platform] in
theorem length_bytes_read (stream : IStream) (object : List UInt8) :
    (stream.read object).2.bytes.length ≤ stream.bytes.length := by
  rw [IStream.read]
  split_ifs
  · exact Nat.le_refl _
  · exact (List.drop_sublist _ _).length_le

/-- The bound on the turns of the loop is not reached. -/
theorem deserializeRecords_leaves (setting : Setting) (allocator : Allocator) (stream : IStream) :
    ∃ iterations result, iterations ≤ stream.bytes.length + 3 ∧
      Loading.Leaves iterations (.start setting allocator stream) result ∧
      deserializeRecords setting allocator stream =
        result.map fun l => (l.table.hashTable, l.stream) := by
  let l := Loading.start setting allocator stream
  have hcreate : Filled setting.recordSerializer l.table.hashTable [] :=
    SharedHashTable.filled_create _ allocator
  obtain ⟨result, hloop⟩ := Loading.loop_returns (l := l) hcreate (Nat.le_refl _)
  obtain ⟨iterations, hle, hleaves⟩ := Loading.leaves_of_loop hloop
  have hflag : l.stream.bytes.length ≤ stream.bytes.length := length_bytes_read stream _
  refine ⟨iterations, result, by omega, hleaves, ?_⟩
  have hresult := congrArg (Option.getD · (.ok l)) hloop
  simp only [l, Loading.start, Option.getD_some] at hresult
  simp only [deserializeRecords, hresult]
  cases result <;> rfl

/-- The loop of `Deserialize` ends for every stream: within three iterations more than the stream
has bytes it leaves with a table, or with an exception or a failed division. -/
theorem deserialize_terminates (allocator : Allocator) (stream : IStream) :
    let object := stream.read (Setting.toObject (0, 0) {})
    let setting := Setting.ofObject object.1
    ∃ iterations result, iterations ≤ stream.bytes.length + 3 ∧
      Loading.Leaves iterations (.start setting allocator object.2) result ∧
      deserializeCurrent allocator stream =
        result.map fun l => (⟨setting, l.table.hashTable⟩, l.stream) := by
  intro object setting
  obtain ⟨iterations, result, hle, hleaves, hresult⟩ :=
    deserializeRecords_leaves setting allocator object.2
  have hobject := length_bytes_read stream (Setting.toObject (0, 0) {})
  refine ⟨iterations, result, Nat.le_trans hle (Nat.add_le_add_right hobject 3), hleaves, ?_⟩
  have hcurrent : deserializeCurrent allocator stream =
      (deserializeRecords setting allocator object.2).map fun loaded =>
        (⟨setting, loaded.1⟩, loaded.2) := rfl
  rw [hcurrent, hresult]
  cases result <;> rfl

end L4.ReadWrite.Deserializer
