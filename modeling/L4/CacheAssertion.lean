import L4.CacheCalls
import L4.Library.Transition

namespace L4.Cache
set_option autoImplicit true
open Metadata
open Transition
variable {setting : Setting}

/-- The assertion of `GetInternal`, which looks at the value that the base has found. -/
def GetAsserts [Platform] (t : WritableHashTable setting) (key : Key) : Prop :=
  ∀ value, ReadWrite.get setting.cacheRecordSerializer t.base.hashTable key = .ok (some value) →
    metaDataSize.toNat < value.size

/-- A call that adds a value, if it is accepted, which has some bytes and leaves room for the
metadata. -/
def AddsValue (setting : Setting) (c : Call) : Prop :=
  ∀ key value times, c = .add key value times →
    setting.cacheRecordSerializer.Validates key value → 0 < value.size ∧ value.size + 4 < 2 ^ 32

section
variable [Platform] {Q : Key → Value → Int → Prop} {options : Options}

theorem getAsserts_iff {t : WritableHashTable setting}
    (h : t.base.hashTable.Consistent setting.cacheRecordSerializer) (key : Key) :
    GetAsserts t key ↔ ∀ s record, t.base.hashTable.load s = some record →
      setting.cacheRecordSerializer.keyOf record = key →
        metaDataSize.toNat < (setting.cacheRecordSerializer.valueOf record).size := by
  constructor
  · intro hasserts s record hload hkey
    exact hasserts _ ((ReadWrite.get_eq_some_iff h key _).mpr ⟨s, record, hload, hkey, rfl⟩)
  · intro hall value hget
    obtain ⟨s, record, hload, hkey, rfl⟩ := (ReadWrite.get_eq_some_iff h key value).mp hget
    exact hall s record hload hkey

theorem not_getAsserts_of_empty {s : Session setting}
    (h : Sound setting.cacheRecordSerializer (CachedWith setting.cacheRecordSerializer Q)
      s.table.base.hashTable)
    (hempty : value.size = 0) (hadd : (s.table.add options key value times).2 = .ok ()) :
    ∃ s', Session.Step options s (.add key value times) s' ∧ ¬ GetAsserts s'.table key := by
  have hroom := WritableHashTable.sound_makeRoom options h key value times
  have he := (WritableHashTable.add_effect hroom fun _ => by omega).1
  refine ⟨_, rfl, ?_⟩
  intro hasserts
  rw [hadd] at he
  have hasserts' : GetAsserts (s.table.add options key value times).1 key := hasserts
  generalize (s.table.add options key value times).1 = t at he hasserts'
  generalize htable : t.base.hashTable = t' at he
  cases he with
  | added record allocator slot stat t' hcached hp =>
    have hconsistent := hp.consistent (hroom.consistent.congr rfl rfl)
    have hload : t'.load slot = some record := by
      rw [hp.stored.load, Function.update_self]
    have hlt := (getAsserts_iff (htable ▸ hconsistent.congr rfl rfl) key).mp hasserts' slot record
      (htable ▸ hload) (hcached.deserialize rfl).1
    rw [hcached.size_valueOf rfl, hempty] at hlt
    exact Nat.lt_irrefl _ hlt

/-- In every run whose accepted values are not empty and leave room for the metadata, the
assertion of `GetInternal` holds of every key. -/
theorem getAsserts_of_run (options : Options) (allocator : Allocator)
    (epochManager : EpochManager RecordBuffer)
    (h : Run (Guarded (fun _ => AddsValue setting) (Session.Step options))
      (.create setting allocator epochManager) calls s) (key : Key) :
    GetAsserts s.table key := by
  have hsound : Sound setting.cacheRecordSerializer
      (CachedWith setting.cacheRecordSerializer fun _ value _ => 0 < value.size)
      s.table.base.hashTable := by
    refine h.invariant (I := fun s => Sound setting.cacheRecordSerializer
      (CachedWith setting.cacheRecordSerializer fun _ value _ => 0 < value.size)
      s.table.base.hashTable) (fun s c s' hs hstep => ?_) (sound_create _ _ allocator)
    obtain ⟨hadds, rfl⟩ := hstep
    refine sound_call options hs c fun key value times hc hv => ?_
    exact And.symm (hadds key value times hc hv)
  rw [getAsserts_iff hsound.consistent]
  intro slot record hload hkey
  obtain ⟨key', value, time, hcached, hpos⟩ := hsound.holds slot record hload
  rw [hcached.size_valueOf rfl]
  exact Nat.lt_add_of_pos_left hpos

end

/-- A value is added and read, then one of the wrong size is rejected. -/
theorem getAsserts_of_byte :
    let platform : Platform := ⟨fun _ => (7, 0), 8, 64⟩
    let setting : Setting := { fixedValueSize := 1 }
    let options : Options := ⟨1000, 100, true⟩
    let epochManager : EpochManager RecordBuffer := ⟨0, ⟨0, 0, [0], by decide⟩, ⟨[.empty], 0⟩⟩
    let key : Key := ⟨[1], by decide⟩
    let calls := [.add key ⟨[2], by decide⟩ ⟨5, 5, 5⟩, .get key 6,
      .add key ⟨[], by decide⟩ ⟨7, 7, 7⟩]
    ∃ s, Run (Session.Step options) (.create setting ⟨0, []⟩ epochManager) calls s ∧
      GetAsserts s.table key := by
  intro platform setting options epochManager key calls
  have hfirst : AddsValue setting (.add key ⟨[2], by decide⟩ ⟨5, 5, 5⟩) := by
    rintro _ _ _ ⟨⟩ -
    exact ⟨by decide, by decide⟩
  have hget : AddsValue setting (.get key 6) := by
    rintro _ _ _ ⟨⟩
  have hrejected : AddsValue setting (.add key ⟨[], by decide⟩ ⟨7, 7, 7⟩) := by
    rintro _ _ _ ⟨⟩ hv
    exact absurd hv (by decide)
  exact ⟨_, .cons rfl (.cons rfl (.cons rfl .nil)),
    getAsserts_of_run options ⟨0, []⟩ epochManager
      (.cons ⟨hfirst, rfl⟩ (.cons ⟨hget, rfl⟩ (.cons ⟨hrejected, rfl⟩ .nil))) key⟩

/-- An empty value takes no more than its metadata. -/
theorem not_getAsserts_of_empty_value :
    let platform : Platform := ⟨fun _ => (7, 0), 8, 64⟩
    let options : Options := ⟨1000, 100, true⟩
    let epochManager : EpochManager RecordBuffer := ⟨0, ⟨0, 0, [0], by decide⟩, ⟨[.empty], 0⟩⟩
    let key : Key := ⟨[1], by decide⟩
    let calls := [.add key ⟨[], by decide⟩ ⟨5, 5, 5⟩]
    ∃ s, Run (Session.Step options) (.create {} ⟨0, []⟩ epochManager) calls s ∧
      ¬ GetAsserts s.table key := by
  intro platform options epochManager key calls
  have hadd : ((Session.create {} ⟨0, []⟩ epochManager).table.add options key ⟨[], by decide⟩
      ⟨5, 5, 5⟩).2 = .ok () := by
    decide +kernel
  obtain ⟨s, hstep, hfails⟩ := not_getAsserts_of_empty (Q := fun _ _ _ => True)
    (sound_create _ _ _) rfl hadd
  exact ⟨s, .single hstep, hfails⟩

end L4.Cache
