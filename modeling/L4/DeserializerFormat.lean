import L4.SerializerRoundTrip

namespace L4
set_option autoImplicit true
open PrefixCode

namespace ReadWrite
open SharedHashTable (Filled keyValues)
variable {setting : Setting}

namespace Deserializer
namespace Loading
variable [Platform] {l l' l₁ : Loading setting} {added : List Record}

omit [Platform] in
theorem readFlag_of_nil (h : l.stream.bytes = []) : l.readFlag.stream.failed = true := by
  cases hf : l.stream.failed <;> simp [readFlag, IStream.read, h, hf]

theorem loop_ne_ok_of_failed (h : Filled setting.recordSerializer l.table.hashTable added)
    (hfailed : l.stream.failed = true) (hmore : l.hasMoreData = true) (turns : Nat) :
    loop turns l ≠ some (.ok l') := by
  induction turns generalizing l added with
  | zero => simp [loop]
  | succ turns ih =>
    intro hloop
    by_cases hr : Loadable setting added l.nextRecord.1
    · obtain ⟨l₁, hturn, hstream, hmore₁, hfilled⟩ := addRecord_of_loadable h hr
      have hfailed₁ : l₁.stream.failed = true := by
        rw [hstream, (nextRecord_of_failed hfailed).2, hfailed]
      have hflag : l₁.readFlag.stream.failed = true := by
        simp [readFlag, IStream.read_of_failed hfailed₁, hfailed₁]
      simp only [loop, hmore, ↓reduceIte, hturn] at hloop
      apply ih (l := l₁.readFlag.countLoaded) (hfilled.congr rfl) hflag ?_ hloop
      exact (readFlag_of_failed hflag).trans (hmore₁.trans hmore)
    · obtain ⟨e, hturn⟩ := addRecord_of_not_loadable h hr
      simp [loop, hmore, hturn] at hloop

theorem of_loop (h : Filled setting.recordSerializer l.table.hashTable added)
    (hgood : l.readFlag.stream.failed = false)
    (hloop : loop turns l.readFlag = some (.ok l')) :
    ∃ items : List (UInt8 × Record), (∀ item ∈ items, item.1 ≠ 0) ∧
      l.stream.bytes = marked Record.serialize 0 items ++ l'.stream.bytes ∧
      Filled setting.recordSerializer l'.table.hashTable (added ++ items.map Prod.snd) := by
  induction turns generalizing l added with
  | zero => simp [loop] at hloop
  | succ turns ih =>
    obtain ⟨-, flag, hbytes, hmore⟩ := of_readFlag hgood
    by_cases hflag : flag = 0
    · have hend : l.readFlag = l' := by
        simpa [loop, hmore, hflag] using hloop
      refine ⟨[], by simp, ?_, ?_⟩
      · rw [hbytes, hflag, hend]
        rfl
      · rw [← hend, List.map_nil, List.append_nil]
        exact h
    · have hmore' : l.readFlag.hasMoreData = true := hmore.trans (decide_eq_true hflag)
      by_cases hr : Loadable setting added l.readFlag.nextRecord.1
      · obtain ⟨l₁, hturn, hstream, hmore₁, hfilled⟩ :=
          addRecord_of_loadable (l := l.readFlag) h hr
        simp only [loop, hmore', ↓reduceIte, hturn] at hloop
        cases hgood₁ : l₁.readFlag.stream.failed with
        | true =>
          exact absurd hloop (loop_ne_ok_of_failed (l := l₁.readFlag.countLoaded)
            (hfilled.congr rfl) hgood₁
            ((readFlag_of_failed hgood₁).trans (hmore₁.trans hmore')) turns)
        | false =>
          obtain ⟨items, hmarks, hrest, hall⟩ := ih (l := l₁.countLoaded) (hfilled.congr rfl)
            hgood₁ hloop
          have hread : l.readFlag.nextRecord.2.failed = false := by
            rw [← hstream]
            exact (of_readFlag hgood₁).1
          have hrecord := (of_nextRecord hread).2
          have hrest' : l₁.stream.bytes = _ := hrest
          refine ⟨(flag, l.readFlag.nextRecord.1) :: items, ?_, ?_, ?_⟩
          · intro item hitem
            rcases List.mem_cons.mp hitem with rfl | hitem
            · exact hflag
            · exact hmarks item hitem
          · rw [hbytes, hrecord, ← hstream, hrest']
            simp
          · rw [List.map_cons, List.append_cons]
            exact hall
      · obtain ⟨e, hturn⟩ := addRecord_of_not_loadable (l := l.readFlag) h hr
        simp [loop, hmore', hturn] at hloop

theorem loop_returns_succ (h : Filled setting.recordSerializer l.table.hashTable added)
    (hnext : ∀ l₁ : Loading setting, Loadable setting added l.nextRecord.1 →
      l₁.stream = l.nextRecord.2 →
      Filled setting.recordSerializer l₁.table.hashTable (added ++ [l.nextRecord.1]) →
      ∃ result, loop turns l₁.readFlag.countLoaded = some result) :
    ∃ result, loop (turns + 1) l = some result := by
  cases hmore : l.hasMoreData with
  | false => exact ⟨.ok l, by simp [loop, hmore]⟩
  | true =>
    by_cases hr : Loadable setting added l.nextRecord.1
    · obtain ⟨l₁, hturn, hstream, -, hfilled⟩ := addRecord_of_loadable h hr
      obtain ⟨result, hresult⟩ := hnext l₁ hr hstream hfilled
      refine ⟨result, ?_⟩
      simp only [loop, hmore, ↓reduceIte, hturn]
      exact hresult
    · obtain ⟨e, hturn⟩ := addRecord_of_not_loadable h hr
      exact ⟨.error e, by simp [loop, hmore, hturn]⟩

/-- A second turn on a failed stream would add the empty key again. -/
theorem loop_returns_of_empty_key (h : Filled setting.recordSerializer l.table.hashTable added)
    (hfailed : l.stream.failed = true) (hempty : ∃ r ∈ added, r.key.data = []) (turns : Nat) :
    ∃ result, loop (turns + 1) l = some result := by
  refine loop_returns_succ h fun l₁ hr _ _ => ?_
  obtain ⟨r, hmem, hkey⟩ := hempty
  exact absurd (Blob.ext (hkey.trans (nextRecord_of_failed hfailed).1.symm)) (hr.2.2 r hmem)

theorem loop_returns_of_failed (h : Filled setting.recordSerializer l.table.hashTable added)
    (hfailed : l.stream.failed = true) (turns : Nat) :
    ∃ result, loop (turns + 2) l = some result := by
  refine loop_returns_succ h fun l₁ _ hstream hfilled => ?_
  obtain ⟨hkey, hsame⟩ := nextRecord_of_failed hfailed
  have hfailed₁ : l₁.readFlag.stream.failed = true := by
    have hf : l₁.stream.failed = true := by rw [hstream, hsame, hfailed]
    simp [readFlag, IStream.read_of_failed hf, hf]
  exact loop_returns_of_empty_key (l := l₁.readFlag.countLoaded) (hfilled.congr rfl) hfailed₁
    ⟨l.nextRecord.1, by simp, hkey⟩ turns

/-- The loop ends before the bound on its turns. -/
theorem loop_returns (h : Filled setting.recordSerializer l.table.hashTable added)
    (hturns : l.stream.bytes.length + 3 ≤ turns) : ∃ result, loop turns l = some result := by
  induction turns generalizing l added with
  | zero => exact absurd hturns (Nat.not_succ_le_zero _)
  | succ turns ih =>
    refine loop_returns_succ h fun l₁ _ hstream hfilled => ?_
    cases hgood₁ : l₁.readFlag.stream.failed with
    | true =>
      obtain ⟨turns, rfl⟩ := Nat.exists_eq_add_of_le' (by omega : 2 ≤ turns)
      exact loop_returns_of_failed (l := l₁.readFlag.countLoaded) (hfilled.congr rfl) hgood₁ turns
    | false =>
      obtain ⟨hgood, flag, hbytes, -⟩ := of_readFlag hgood₁
      rw [hstream] at hgood
      have hlen : l.stream.bytes.length = _ := congrArg List.length (of_nextRecord hgood).2
      rw [← hstream, hbytes, List.length_append, List.length_cons] at hlen
      apply ih (l := l₁.readFlag.countLoaded) (hfilled.congr rfl)
      have hsame : l₁.readFlag.countLoaded.stream = l₁.readFlag.stream := rfl
      rw [hsame]
      omega

end Loading

variable [Platform] {allocator : Allocator}

theorem of_deserializeRecords {stream stream' : IStream} {t : SharedHashTable setting}
    (h : deserializeRecords setting allocator stream = .ok (t, stream'))
    (hbytes : stream.failed = false) (hne : stream.bytes ≠ []) :
    ∃ items : List (UInt8 × Record), (∀ item ∈ items, item.1 ≠ 0) ∧
      stream.bytes = marked Record.serialize 0 items ++ stream'.bytes ∧
      Filled setting.recordSerializer t (items.map Prod.snd) := by
  have hcreate : Filled setting.recordSerializer (.create setting allocator) [] :=
    SharedHashTable.filled_create _ allocator
  let l : Loading setting := ⟨stream, ⟨.create setting allocator, {}⟩, [], [], false⟩
  obtain ⟨result, hresult⟩ := Loading.loop_returns (l := l.readFlag) hcreate (Nat.le_refl _)
  have hgood : l.readFlag.stream.failed = false := by
    obtain ⟨flag, rest, hcons⟩ := List.exists_cons_of_ne_nil hne
    have hstream : l.stream = ⟨flag :: rest, false⟩ := by
      cases stream
      simp_all [l]
    rw [(Loading.readFlag_cons hstream).1]
  simp only [deserializeRecords] at h
  have hloop : (l.readFlag.loop (l.readFlag.stream.bytes.length + 3)).getD (.ok l.readFlag) =
    result := by rw [hresult, Option.getD_some]
  cases result with
  | error e =>
    simp only [l] at hloop
    rw [hloop] at h
    cases h
  | ok l' =>
    simp only [l] at hloop
    rw [hloop] at h
    obtain ⟨rfl, rfl⟩ := Prod.mk.inj (Except.ok.inj h)
    obtain ⟨items, hmarks, hall, hfilled⟩ := Loading.of_loop hcreate hgood hresult
    exact ⟨items, hmarks, hall, hfilled⟩

/-- The bytes start with a complete serialization of records with distinct keys, and the table has
the setting and the records. -/
def LoadedFromFormat (bytes : List UInt8) (loaded : Loaded) : Prop :=
  ∃ padding items rest, bytes = format padding loaded.1 items ++ rest ∧
    (∀ item ∈ items, item.1 ≠ 0) ∧
    ((items.map Prod.snd).Pairwise fun r r' => r.key ≠ r'.key) ∧
    (keyValues loaded.1.recordSerializer loaded.2).Perm (items.map Prod.snd)

/-- The stream is loaded only when it starts with a complete serialization, and not when it is a
proper start of one. -/
def AcceptsOnlyFormat (bytes : List UInt8) : Prop :=
  ∀ allocator loaded stream, deserialize allocator ⟨bytes, false⟩ = .ok (loaded, stream) →
    LoadedFromFormat bytes loaded ∧
    ∀ padding setting (items : List (UInt8 × Record)) rest, (∀ item ∈ items, item.1 ≠ 0) →
      bytes ++ rest = format padding setting items → rest = []

theorem deserialize_of_short (allocator : Allocator) (hlen : body.length ≤ 16) :
    ∃ loaded stream, deserialize allocator ⟨currentVersion :: body, false⟩ =
      .ok (loaded, stream) := by
  have hversion : IStream.read ⟨currentVersion :: body, false⟩ [0] =
      ([currentVersion], ⟨body, false⟩) :=
    IStream.read_append (b := [currentVersion]) rfl body
  have hlength : (Setting.toObject (0, 0) {}).length = 16 := Setting.length_toObject _ _
  let object := IStream.read ⟨body, false⟩ (Setting.toObject (0, 0) {})
  have hobject : object.2.bytes = [] := by
    simp [object, IStream.read, hlength, hlen]
  let l : Loading (Setting.ofObject object.1) :=
    ⟨object.2, ⟨.create _ allocator, {}⟩, [], [], false⟩
  have hflag : l.readFlag.stream.failed = true := Loading.readFlag_of_nil hobject
  have hmore : l.readFlag.hasMoreData = false := Loading.readFlag_of_failed hflag
  have hloop : l.readFlag.loop (l.readFlag.stream.bytes.length + 3) = some (.ok l.readFlag) := by
    simp [Loading.loop, hmore]
  have hrecords : deserializeRecords (Setting.ofObject object.1) allocator object.2 =
      .ok (l.readFlag.table.hashTable, l.readFlag.stream) := by
    simp only [deserializeRecords]
    simp only [l] at hloop
    rw [hloop, Option.getD_some]
  refine ⟨⟨Setting.ofObject object.1, l.readFlag.table.hashTable⟩, l.readFlag.stream, ?_⟩
  rw [deserialize, hversion]
  simp only [↓reduceIte, deserializeCurrent]
  rw [hrecords]
  rfl

theorem exists_of_deserialize {bytes : List UInt8}
    (h : deserialize allocator ⟨bytes, false⟩ = .ok result) :
    ∃ rest, bytes = currentVersion :: rest ∧
      deserializeCurrent allocator ⟨rest, false⟩ = .ok result := by
  cases bytes with
  | nil =>
    have hread : IStream.read ⟨[], false⟩ [0] = ([0], ⟨[], true⟩) := rfl
    rw [deserialize, hread] at h
    simp [currentVersion] at h
  | cons version rest =>
    have hread : IStream.read ⟨version :: rest, false⟩ [0] = ([version], ⟨rest, false⟩) :=
      IStream.read_append (b := [version]) rfl rest
    rw [deserialize, hread] at h
    by_cases hversion : version = currentVersion
    · simp only [hversion, ↓reduceIte] at h
      exact ⟨rest, by rw [hversion], h⟩
    · simp [hversion] at h

theorem loadedFromFormat_of_deserialize {bytes : List UInt8} {loaded : Loaded}
    (h : deserialize allocator ⟨bytes, false⟩ = .ok (loaded, stream)) (hlen : 17 < bytes.length) :
    LoadedFromFormat bytes loaded := by
  obtain ⟨body, rfl, hcurrent⟩ := exists_of_deserialize h
  have hbody : 16 < body.length := Nat.lt_of_succ_lt_succ hlen
  have hobject : (body.take 16).length = (Setting.toObject (0, 0) {}).length := by
    rw [Setting.length_toObject, List.length_take, Setting.sizeofSetting]
    omega
  have hread : IStream.read ⟨body, false⟩ (Setting.toObject (0, 0) {}) =
      (body.take 16, ⟨body.drop 16, false⟩) := by
    have happend := IStream.read_append hobject (body.drop 16)
    rwa [List.take_append_drop] at happend
  rw [deserializeCurrent, hread] at hcurrent
  cases hrecords : deserializeRecords (Setting.ofObject (body.take 16)) allocator
      ⟨body.drop 16, false⟩ with
  | error e =>
    rw [hrecords] at hcurrent
    cases hcurrent
  | ok result =>
    obtain ⟨t, stream'⟩ := result
    rw [hrecords] at hcurrent
    obtain ⟨rfl, rfl⟩ := Prod.mk.inj (Except.ok.inj hcurrent)
    have hne : body.drop 16 ≠ [] := by
      rw [ne_eq, List.drop_eq_nil_iff]
      omega
    obtain ⟨items, hmarks, hbytes, hfilled⟩ := of_deserializeRecords hrecords rfl hne
    obtain ⟨padding, hpadding⟩ := Setting.toObject_ofObject
      (hobject.trans (Setting.length_toObject _ _))
    refine ⟨padding, items, stream'.bytes, ?_, hmarks, ?_, hfilled.perm⟩
    · rw [format, hpadding, List.append_assoc, ← hbytes, List.cons_append, List.take_append_drop]
    · exact hfilled.perm.pairwise_iff (fun hne => hne.symm) |>.mp
        hfilled.consistent.pairwise_keys

omit [Platform] in
theorem format_length (padding : UInt8 × UInt8) (setting : Setting)
    (items : List (UInt8 × Record)) : 17 < (format padding setting items).length := by
  have hmarked := length_lt_marked Record.serialize 0 items
  have hobject : (setting.toObject padding).length = 16 := setting.length_toObject padding
  rw [format, List.length_append, List.length_cons, hobject]
  omega

omit [Platform] in
/-- No serialization is a proper start of another one. -/
theorem format_prefixFree {padding padding' : UInt8 × UInt8} {setting setting' : Setting}
    {items items' : List (UInt8 × Record)} (hmarks : ∀ item ∈ items, item.1 ≠ 0)
    (hmarks' : ∀ item ∈ items', item.1 ≠ 0)
    (h : format padding setting items ++ rest = format padding' setting' items') : rest = [] := by
  simp only [format, List.cons_append, List.append_assoc] at h
  obtain ⟨-, hrest⟩ := List.append_inj (List.cons.inj h).2
    ((setting.length_toObject padding).trans (setting'.length_toObject padding').symm)
  rw [← List.append_nil (marked Record.serialize 0 items')] at hrest
  exact (Record.prefixFree_serialize.marked hmarks hmarks' hrest).2

/-- The deserializer accepts only its format, but for the streams that end after the version
and before the first flag. It loads all of these. -/
theorem acceptsOnlyFormat_iff (bytes : List UInt8) :
    AcceptsOnlyFormat bytes ↔ ¬ (bytes.head? = some currentVersion ∧ bytes.length ≤ 17) := by
  constructor
  · intro haccepts hshort
    obtain ⟨hhead, hlen⟩ := hshort
    obtain ⟨body, rfl⟩ : ∃ body, bytes = currentVersion :: body := by
      cases bytes with
      | nil => cases hhead
      | cons version body =>
        obtain rfl := Option.some.inj hhead
        exact ⟨body, rfl⟩
    obtain ⟨loaded, stream, hload⟩ := deserialize_of_short ⟨0, []⟩ (Nat.le_of_succ_le_succ hlen)
    obtain ⟨⟨padding, items, rest, hbytes, -⟩, -⟩ := haccepts _ loaded stream hload
    have hformat := format_length padding loaded.1 items
    rw [hbytes, List.length_append] at hlen
    omega
  · intro hlong allocator loaded stream hload
    have hlen : 17 < bytes.length := by
      obtain ⟨body, rfl, -⟩ := exists_of_deserialize hload
      by_contra hle
      exact hlong ⟨rfl, Nat.le_of_not_lt hle⟩
    have hformat := loadedFromFormat_of_deserialize hload hlen
    refine ⟨hformat, fun padding setting items rest hmarks hbytes => ?_⟩
    obtain ⟨padding', items', rest', hbytes', hmarks', -⟩ := hformat
    rw [hbytes', List.append_assoc] at hbytes
    exact (List.append_eq_nil_iff.mp (format_prefixFree hmarks' hmarks hbytes)).2

omit [Platform] in
/-- The stream of a table with one bucket, cut off before the flag after its setting. -/
theorem not_acceptsOnlyFormat_of_cut :
    ¬ @AcceptsOnlyFormat ⟨fun _ => (7, 0), 8, 64⟩
      [1, 1, 0, 0, 0, 1, 0, 0, 0, 0, 0, 0, 0, 0, 0, 0, 0] := by
  intro haccepts
  obtain ⟨loaded, stream, hload⟩ := @deserialize_of_short ⟨fun _ => (7, 0), 8, 64⟩
    [1, 0, 0, 0, 1, 0, 0, 0, 0, 0, 0, 0, 0, 0, 0, 0] ⟨0, []⟩ (by decide)
  have hrest := (haccepts _ loaded stream hload).2 (0, 0) {} [] [0] (by simp) (by decide)
  exact absurd hrest (by decide)

end Deserializer

end ReadWrite

end L4
