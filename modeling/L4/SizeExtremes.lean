import Mathlib.Order.Bounds.Basic
import L4.TableLinearizability
import L4.TableThreadOwnership
import L4.TableThreadRuns

namespace L4.TableThreads
set_option autoImplicit true
open Cache (touched_setBucket)
open ReadWrite (Published perfUpdatesForRemoved updatePerfDataForAdd)
open Transition (Run)

/-! The counters of the smallest and the largest sizes. -/

/-- The counters of extreme sizes. -/
def Extreme (counter : HashTablePerfCounter) : Prop :=
  counter ∈ [.minKeySize, .maxKeySize, .minValueSize, .maxValueSize]

def isMinimum : HashTablePerfCounter → Bool
  | .minKeySize | .minValueSize => true
  | _ => false

/-- The size of a record that a counter is about. -/
def sizeFor (rs : RecordSerializer) (counter : HashTablePerfCounter) (record : RecordBuffer) :
    Int :=
  match counter with
  | .minKeySize | .maxKeySize => (rs.keyOf record).size
  | _ => (rs.valueOf record).size

/-- The update for a size. -/
def extremum (counter : HashTablePerfCounter) (size : Int) : PerfUpdate :=
  if isMinimum counter then .min counter size else .max counter size

/-- The value of the counter takes the size into account. -/
def Bounds (counter : HashTablePerfCounter) (value size : Int) : Prop :=
  if isMinimum counter then value ≤ size else size ≤ value

/-- The update is not about the counter. -/
def Ignores (counter : HashTablePerfCounter) (u : PerfUpdate) : Prop :=
  ∀ perfData, u.apply perfData counter = perfData counter

section Updates
variable {counter : HashTablePerfCounter} {rs : RecordSerializer}

theorem Bounds.trans (h : Bounds counter a b) (h' : Bounds counter b c) : Bounds counter a c := by
  unfold Bounds at *
  split_ifs at * <;> omega

theorem Bounds.refl (counter : HashTablePerfCounter) (value : Int) :
    Bounds counter value value := by
  unfold Bounds
  split_ifs <;> exact Int.le_refl _

theorem bounds_apply (perfData : HashTablePerfData) (counter : HashTablePerfCounter) (size : Int) :
    Bounds counter ((extremum counter size).apply perfData counter) size ∧
      Bounds counter ((extremum counter size).apply perfData counter) (perfData counter) ∧
      ((extremum counter size).apply perfData counter = size ∨
        (extremum counter size).apply perfData counter = perfData counter) := by
  unfold Bounds extremum
  split_ifs
  · simp only [PerfUpdate.apply, Function.update_self]
    omega
  · simp only [PerfUpdate.apply, Function.update_self]
    omega

theorem ignores_add {c : HashTablePerfCounter} (h : c ≠ counter) (value : Int) :
    Ignores counter (.add c value) :=
  fun _ => Function.update_of_ne h.symm _ _

theorem perfUpdatesForRemoved_ignores (rs : RecordSerializer) (record : RecordBuffer)
    (hc : Extreme counter) : ∀ u ∈ perfUpdatesForRemoved rs record, Ignores counter u := by
  simp only [Extreme, List.mem_cons, List.not_mem_nil, or_false] at hc
  intro u hu
  simp only [perfUpdatesForRemoved, ReadWrite.updatePerfDataForRemove, PerfUpdate.decrement,
    PerfUpdate.subtract, List.mem_cons, List.not_mem_nil, or_false] at hu
  rcases hu with rfl | rfl | rfl | rfl <;> refine ignores_add ?_ _ <;>
    rcases hc with rfl | rfl | rfl | rfl <;> simp

theorem updatePerfDataForAdd_extreme {stat : ReadWrite.Stat} (hc : Extreme counter)
    (hkey : stat.keySize = (rs.keyOf record).size)
    (hvalue : stat.valueSize = (rs.valueOf record).size) :
    (∀ u ∈ updatePerfDataForAdd rs stat,
        Ignores counter u ∨ u = extremum counter (sizeFor rs counter record)) ∧
      (stat.oldValueSize = 0 ∨ counter ∈ [.minValueSize, .maxValueSize] →
        extremum counter (sizeFor rs counter record) ∈ updatePerfDataForAdd rs stat) := by
  have hmax (c : HashTablePerfCounter) (hne : c ≠ counter) (value : Int) :
      Ignores counter (.max c value) := fun _ => Function.update_of_ne hne.symm _ _
  have hmin (c : HashTablePerfCounter) (hne : c ≠ counter) (value : Int) :
      Ignores counter (.min c value) := fun _ => Function.update_of_ne hne.symm _ _
  simp only [Extreme, List.mem_cons, List.not_mem_nil, or_false] at hc
  simp only [updatePerfDataForAdd, hkey, hvalue]
  rcases hc with rfl | rfl | rfl | rfl <;> split_ifs <;>
    simp [extremum, isMinimum, sizeFor, ignores_add, PerfUpdate.increment, *]

theorem sizeFor_congr {record record' : RecordBuffer} (hkey : rs.keyOf record' = rs.keyOf record)
    (hsize : (rs.valueOf record').size = (rs.valueOf record).size) :
    sizeFor rs counter record' = sizeFor rs counter record := by
  unfold sizeFor
  rw [hkey, hsize]

end Updates

section Step
variable [Platform] {config : HashTableConfig} {counter : HashTablePerfCounter}
  {others : List (Thread config.setting)} {t t' : Table config} {th th' : Thread config.setting}
  {label : Label config.setting}

/-- The table stores a record of this size. -/
def StoresSize (counter : HashTablePerfCounter) (t : Table config) (size : Int) : Prop :=
  ∃ s r, t.hashTable.load s = some r ∧ sizeFor config.recordSerializer counter r = size

/-- What a step does to a counter of extreme sizes, to the updates that its thread has still to
make, and to the records that are stored. -/
structure Advance (counter : HashTablePerfCounter) (t : Table config) (th : Thread config.setting)
    (label : Label config.setting) (t' : Table config) (th' : Thread config.setting) : Prop where
  kept : ∀ u, .update u ∈ th.tasks → .update u ∈ th'.tasks ∨
    t'.hashTable.perfData = u.apply t.hashTable.perfData
  perfData : t'.hashTable.perfData = t.hashTable.perfData ∨
    ∃ u, .update u ∈ th.tasks ∧ t'.hashTable.perfData = u.apply t.hashTable.perfData
  tasks : ∀ u, .update u ∈ th'.tasks → .update u ∈ th.tasks ∨ Ignores counter u ∨
    ∃ r ∈ label.published, u = extremum counter (sizeFor config.recordSerializer counter r)
  stored : ∀ s r, t'.hashTable.load s = some r → r ∈ label.published ∨
    StoresSize counter t (sizeFor config.recordSerializer counter r)
  published : ∀ r ∈ label.published,
    .update (extremum counter (sizeFor config.recordSerializer counter r)) ∈ th'.tasks ∨
      StoresSize counter t (sizeFor config.recordSerializer counter r)

omit [Platform] in
theorem advance_of_frame (hkept : ∀ u, .update u ∈ th.tasks → .update u ∈ th'.tasks)
    (hperf : t'.hashTable.perfData = t.hashTable.perfData)
    (htasks : ∀ u, .update u ∈ th'.tasks → .update u ∈ th.tasks ∨ Ignores counter u)
    (hstored : ∀ s r, t'.hashTable.load s = some r →
      StoresSize counter t (sizeFor config.recordSerializer counter r))
    (hlabel : label.published = []) : Advance counter t th label t' th' where
  kept u hu := .inl (hkept u hu)
  perfData := .inl hperf
  tasks u hu := (htasks u hu).imp_right .inl
  stored s r hr := .inr (hstored s r hr)
  published r hr := by
    rw [hlabel] at hr
    cases hr

omit [Platform] in
theorem storesSize_of_load {s : config.setting.Slot} (hload : t.hashTable.load s = some r) :
    StoresSize counter t (sizeFor config.recordSerializer counter r) := ⟨s, r, hload, rfl⟩

omit [Platform] in
theorem storesSize_update {s : config.setting.Slot} {data : Option RecordBuffer}
    {hashTable : SharedHashTable config.setting}
    (hload : hashTable.load = Function.update t.hashTable.load s data)
    (hdata : ∀ r ∈ data, StoresSize counter t (sizeFor config.recordSerializer counter r))
    (s' : config.setting.Slot) (r : RecordBuffer) (hr : hashTable.load s' = some r) :
    StoresSize counter t (sizeFor config.recordSerializer counter r) := by
  rw [hload, Function.update_apply] at hr
  split_ifs at hr
  · exact hdata r hr
  · exact storesSize_of_load hr

/-- The size of a record that is published is that of the record of its key that it replaces, or
its thread has still to take it into account. -/
theorem advance_of_published {s : config.setting.Slot} {hashTable : SharedHashTable config.setting}
    (hp : Published config.recordSerializer t.hashTable record s stat old hashTable)
    (hc : Extreme counter) (ht' : t'.hashTable = hashTable)
    (htasks : th.tasks = [])
    (htasks' : th'.tasks = (updatePerfDataForAdd config.recordSerializer stat).map .update ++
      old.toList.map .release) :
    Advance counter t th (.publish s record old) t' th' := by
  obtain ⟨hupdates, hmem⟩ := updatePerfDataForAdd_extreme hc hp.keySize hp.valueSize
  subst ht'
  refine ⟨fun u hu => ?_, .inl hp.stored.perfData, fun u hu => ?_, fun s' r hr => ?_,
    fun r hr => ?_⟩
  · rw [htasks] at hu
    cases hu
  · rw [htasks'] at hu
    rcases List.mem_append.mp hu with hu | hu
    · obtain ⟨u', hu', heq⟩ := List.mem_map.mp hu
      obtain rfl := Task.update.inj heq
      exact .inr ((hupdates u' hu').imp_right fun heq => ⟨record, List.mem_singleton_self _, heq⟩)
    · obtain ⟨r, -, heq⟩ := List.mem_map.mp hu
      cases heq
  · rw [hp.stored.load, Function.update_apply] at hr
    split_ifs at hr
    · exact .inl (List.mem_singleton.mpr (Option.some.inj hr).symm)
    · exact .inr (storesSize_of_load hr)
  · obtain rfl := List.mem_singleton.mp hr
    rw [htasks']
    by_cases hnew : stat.oldValueSize = 0 ∨ counter ∈ [.minValueSize, .maxValueSize]
    · exact .inl (List.mem_append_left _ (List.mem_map_of_mem (hmem hnew)))
    · obtain ⟨hold, hvalue⟩ := not_or.mp hnew
      rw [hp.oldValueSize] at hold
      cases hload : t.hashTable.load s with
      | none => simp [hload] at hold
      | some replaced =>
        have hkey : config.recordSerializer.keyOf replaced = config.recordSerializer.keyOf r :=
          hp.admits.1 replaced hload
        refine .inr ⟨s, replaced, hload, ?_⟩
        simp only [Extreme, List.mem_cons, List.not_mem_nil, or_false, not_or] at hc hvalue
        rcases hc with rfl | rfl | rfl | rfl <;> simp_all [sizeFor]

theorem Act.advance (h : Act config others t th label t' th')
    (hstores : Stores config t.hashTable m) (hstands : th.phase.Stands status)
    (hc : Extreme counter) : Advance counter t th label t' th' := by
  have hremoved (record : RecordBuffer) (u : PerfUpdate) (tasks : List Task)
      (hu : .update u ∈ (perfUpdatesForRemoved config.recordSerializer record).map .update ++ tasks)
      (htasks : .update u ∈ tasks → Ignores counter u) : Ignores counter u := by
    rcases List.mem_append.mp hu with hu | hu
    · obtain ⟨u', hu', heq⟩ := List.mem_map.mp hu
      exact Task.update.inj heq ▸ perfUpdatesForRemoved_ignores _ record hc u' hu'
    · exact htasks hu
  have hincrement (c : HashTablePerfCounter) (hne : c ∉ [.minKeySize, .maxKeySize, .minValueSize,
      .maxValueSize]) : Ignores counter (.increment c) :=
    ignores_add (fun heq => hne (heq ▸ hc)) 1
  have haccess {s : config.setting.Slot} {record : RecordBuffer} (hcache : config.cache.isSome)
      (hload : t.hashTable.load s = some record) (set : Bool) :
      StoresSize counter t (sizeFor config.recordSerializer counter
        (Cache.storeMetadata config.recordSerializer record (Cache.Metadata.updateAccessStatus set
          (Cache.metadataOf config.recordSerializer record)).2)) := by
    obtain ⟨-, hkey, -, hsize⟩ := keeps_access hcache (hstores.sound.holds _ _ hload) set
    exact ⟨s, record, hload, (sizeFor_congr hkey hsize).symm⟩
  cases h with
  | update u tasks =>
    refine ⟨fun u' hu' => ?_, .inr ⟨u, List.mem_cons_self, rfl⟩,
      fun u' hu' => .inl (List.mem_cons_of_mem _ hu'), fun s r hr => .inr ⟨s, r, hr, rfl⟩,
      fun r hr => absurd hr List.not_mem_nil⟩
    rcases List.mem_cons.mp hu' with heq | hu'
    · obtain rfl := Task.update.inj heq
      exact .inr rfl
    · exact .inl hu'
  | release record tasks =>
    refine advance_of_frame (fun u hu => ?_) rfl (fun u hu => .inl (List.mem_cons_of_mem _ hu))
      (fun s r hr => ⟨s, r, hr, rfl⟩) rfl
    rcases List.mem_cons.mp hu with heq | hu
    · cases heq
    · exact hu
  | visitStays hcache hload hvisit =>
    refine advance_of_frame (fun u hu => hu) rfl (fun u hu => .inl hu)
      (storesSize_update (touched_setBucket hload _).stored.load fun r hr => ?_) rfl
    obtain rfl := Option.some.inj hr
    rcases Sweep.visit_cases hvisit with rfl | rfl
    · exact storesSize_of_load hload
    · exact haccess (by rw [hcache]; rfl) hload false
  | visitRemoves hcache hload hvisit =>
    refine advance_of_frame (fun u hu => absurd hu List.not_mem_nil) rfl (fun u hu => .inr ?_)
      (storesSize_update (ReadWrite.unlinked_of_load hload).stored.load fun r hr => ?_) rfl
    · refine hremoved _ u _ hu fun hu => ?_
      simp only [List.mem_cons, reduceCtorEq, Task.update.injEq, List.not_mem_nil, or_false,
        false_or] at hu
      exact hu ▸ hincrement .evictedRecordsCount (by decide)
    · cases hr
  | createRecordBuffer curEpochTime hcreate =>
    obtain ⟨allocator, rfl, -⟩ := createRecordBuffer_allocates hcreate
    exact advance_of_frame (fun u hu => hu) rfl (fun u hu => .inl hu)
      (fun s r hr => ⟨s, r, hr, rfl⟩) rfl
  | createRecordBufferThrows curEpochTime hcreate =>
    obtain ⟨allocator, rfl, -⟩ := createRecordBuffer_allocates hcreate
    exact advance_of_frame (fun u hu => hu) rfl (fun u hu => .inl hu)
      (fun s r hr => ⟨s, r, hr, rfl⟩) rfl
  | add hinfo hlock hslot hpublish =>
    exact advance_of_published (published_of_scan hstores.sound.consistent hinfo hslot hpublish) hc
      rfl rfl rfl
  | remove hinfo hlock hfind =>
    have hload : t.hashTable.load (_, _) = some _ := (Bucket.find?_some hfind).1
    refine advance_of_frame (fun u hu => absurd hu List.not_mem_nil) rfl (fun u hu => .inr ?_)
      (storesSize_update (ReadWrite.unlinked_of_load hload).stored.load fun r hr => ?_) rfl
    · exact hremoved _ u _ hu fun hu => by cases List.mem_singleton.mp hu
    · cases hr
  | touch s r =>
    obtain ⟨hcache, -⟩ := hstands
    have hperf := touch_perfData t.hashTable config.recordSerializer s r.address
    refine advance_of_frame (fun u hu => absurd hu List.not_mem_nil) hperf (fun u hu => .inr ?_)
      (fun s' r' hr' => ?_) rfl
    · obtain rfl := Task.update.inj (List.mem_singleton.mp hu)
      exact hincrement .cacheHitCount (by decide)
    · change (TableThreads.touch t.hashTable config.recordSerializer s r.address).load s' = some r'
        at hr'
      rcases touch_cases t.hashTable config.recordSerializer s r.address with
        heq | ⟨record, hload, heq⟩
      · rw [heq] at hr'
        exact storesSize_of_load hr'
      · rw [heq] at hr'
        exact storesSize_update (touched_setBucket hload _).stored.load
          (fun r hr => Option.some.inj hr ▸ haccess hcache hload true) s' r' hr'
  | getMisses =>
    refine advance_of_frame (fun u hu => absurd hu List.not_mem_nil) rfl (fun u hu => .inr ?_)
      (fun s r hr => ⟨s, r, hr, rfl⟩) rfl
    split_ifs at hu
    · obtain rfl := Task.update.inj (List.mem_singleton.mp hu)
      exact hincrement .cacheMissCount (by decide)
    · cases hu
  | _ =>
    exact advance_of_frame (fun u hu => hu) rfl (fun u hu => .inl hu)
      (fun s r hr => ⟨s, r, hr, rfl⟩) rfl

end Step

section Results
variable [Platform] {config : HashTableConfig} {counter : HashTablePerfCounter}
  {p p' : System config} {label : Label config.setting} {labels : List (Label config.setting)}

/-- The counter takes the size into account, or a thread has still to update it. -/
def Known (counter : HashTablePerfCounter) (p : System config) (size : Int) : Prop :=
  Bounds counter (p.shared.hashTable.perfData counter) size ∨
    ∃ th ∈ p.threads, .update (extremum counter size) ∈ th.tasks

/-- What holds of a counter of extreme sizes after the labels. -/
structure Sizes (counter : HashTablePerfCounter) (labels : List (Label config.setting))
    (p : System config) : Prop where
  stores : ∃ m, Stores config p.shared.hashTable m
  stands : ∀ th ∈ p.threads, ∃ status, th.phase.Stands status
  tasks : ∀ th ∈ p.threads, ∀ u, .update u ∈ th.tasks → Ignores counter u ∨
    ∃ r ∈ labels.flatMap Label.published,
      u = extremum counter (sizeFor config.recordSerializer counter r)
  attained : p.shared.hashTable.perfData counter = HashTablePerfData.initial counter ∨
    ∃ r ∈ labels.flatMap Label.published,
      p.shared.hashTable.perfData counter = sizeFor config.recordSerializer counter r
  bounded : Bounds counter (p.shared.hashTable.perfData counter)
    (HashTablePerfData.initial counter)
  known : ∀ r ∈ labels.flatMap Label.published,
    Known counter p (sizeFor config.recordSerializer counter r)
  stored : ∀ size, StoresSize counter p.shared size → Known counter p size

theorem Sizes.step (h : Sizes counter labels p) (hstep : Step config p label p')
    (hfits : config.cache.isSome → label.Fits) (hc : Extreme counter) :
    Sizes counter (labels ++ [label]) p' := by
  obtain ⟨m, hstores⟩ := h.stores
  cases hstep with
  | @intro t th _ t' th' before after hact =>
    have hmem : th ∈ before ++ th :: after := List.mem_append_right _ List.mem_cons_self
    have hmem' : th' ∈ before ++ th' :: after := List.mem_append_right _ List.mem_cons_self
    have hother {x : Thread config.setting} (hx : x ∈ before ++ th' :: after) :
        x = th' ∨ x ∈ before ++ th :: after := by
      simp only [List.mem_append, List.mem_cons] at hx ⊢
      tauto
    have hother' {x : Thread config.setting} (hx : x ∈ before ++ th :: after) :
        x = th ∨ x ∈ before ++ th' :: after := by
      simp only [List.mem_append, List.mem_cons] at hx ⊢
      tauto
    have hpublished (r : RecordBuffer) : r ∈ (labels ++ [label]).flatMap Label.published ↔
        r ∈ labels.flatMap Label.published ∨ r ∈ label.published := by
      simp [List.flatMap_append]
    obtain ⟨status, hstands⟩ := h.stands th hmem
    obtain ⟨m', status', -, hstores', hstands'⟩ := hact.turn hfits hstores hstands
    have hadvance := hact.advance hstores hstands hc
    -- the counter after the step
    have hvalue : t'.hashTable.perfData counter = t.hashTable.perfData counter ∨
        ∃ r ∈ labels.flatMap Label.published, t'.hashTable.perfData =
          (extremum counter (sizeFor config.recordSerializer counter r)).apply
            t.hashTable.perfData := by
      rcases hadvance.perfData with hperf | ⟨u, hu, hperf⟩
      · exact .inl (congrFun hperf counter)
      · rcases h.tasks th hmem u hu with hignores | ⟨r, hr, rfl⟩
        · exact .inl ((congrFun hperf counter).trans (hignores _))
        · exact .inr ⟨r, hr, hperf⟩
    have hbounds : Bounds counter (t'.hashTable.perfData counter)
        (t.hashTable.perfData counter) := by
      rcases hvalue with heq | ⟨r, -, hperf⟩
      · exact heq ▸ .refl counter _
      · rw [hperf]
        exact (bounds_apply _ counter _).2.1
    have hknown (size : Int) (hsize : Known counter ⟨t, before ++ th :: after⟩ size) :
        Known counter ⟨t', before ++ th' :: after⟩ size := by
      rcases hsize with hsize | ⟨x, hx, hu⟩
      · exact .inl (hbounds.trans hsize)
      · rcases hother' hx with rfl | hx
        · rcases hadvance.kept _ hu with hu | hperf
          · exact .inr ⟨th', hmem', hu⟩
          · refine .inl ?_
            show Bounds counter (t'.hashTable.perfData counter) size
            rw [hperf]
            exact (bounds_apply _ counter size).1
        · exact .inr ⟨x, hx, hu⟩
    have hnew (r : RecordBuffer) (hr : r ∈ label.published) :
        Known counter ⟨t', before ++ th' :: after⟩
          (sizeFor config.recordSerializer counter r) := by
      rcases hadvance.published r hr with hu | hstored
      · exact .inr ⟨th', hmem', hu⟩
      · exact hknown _ (h.stored _ hstored)
    refine ⟨⟨m', hstores'⟩, fun x hx => ?_, fun x hx u hu => ?_, ?_, hbounds.trans h.bounded,
      fun r hr => ?_, ?_⟩
    · rcases hother hx with rfl | hx
      · exact ⟨status', hstands'⟩
      · exact h.stands x hx
    · have hold (hu : Ignores counter u ∨ ∃ r ∈ labels.flatMap Label.published,
          u = extremum counter (sizeFor config.recordSerializer counter r)) :
          Ignores counter u ∨ ∃ r ∈ (labels ++ [label]).flatMap Label.published,
            u = extremum counter (sizeFor config.recordSerializer counter r) :=
        hu.imp_right fun ⟨r, hr, heq⟩ => ⟨r, (hpublished r).mpr (.inl hr), heq⟩
      rcases hother hx with rfl | hx
      · rcases hadvance.tasks u hu with hu | hignores | ⟨r, hr, heq⟩
        · exact hold (h.tasks th hmem u hu)
        · exact .inl hignores
        · exact .inr ⟨r, (hpublished r).mpr (.inr hr), heq⟩
      · exact hold (h.tasks x hx u hu)
    · have hold : t'.hashTable.perfData counter = t.hashTable.perfData counter →
          t'.hashTable.perfData counter = HashTablePerfData.initial counter ∨
            ∃ r ∈ (labels ++ [label]).flatMap Label.published,
              t'.hashTable.perfData counter = sizeFor config.recordSerializer counter r := by
        intro heq
        rw [heq]
        exact h.attained.imp_right fun ⟨r, hr, hsize⟩ => ⟨r, (hpublished r).mpr (.inl hr), hsize⟩
      rcases hvalue with heq | ⟨r, hr, hperf⟩
      · exact hold heq
      · rcases (bounds_apply t.hashTable.perfData counter _).2.2 with hsize | hsame
        · exact .inr ⟨r, (hpublished r).mpr (.inl hr), (congrFun hperf counter).trans hsize⟩
        · exact hold ((congrFun hperf counter).trans hsame)
    · rcases (hpublished r).mp hr with hr | hr
      · exact hknown _ (h.known r hr)
      · exact hnew r hr
    · rintro size ⟨s, r, hload, rfl⟩
      rcases hadvance.stored s r hload with hr | hstored
      · exact hnew r hr
      · exact hknown _ (h.stored _ hstored)

theorem storesSize_create (size : Int) :
    ¬ StoresSize counter (initial config allocator numThreads).shared size := by
  rintro ⟨s, r, hload, -⟩
  cases (congrFun (SharedHashTable.load_create _ _) s).symm.trans hload

theorem sizes_initial (hc : Extreme counter) :
    Sizes counter [] (initial config allocator numThreads) := by
  have hquiescent := quiescent_initial config allocator numThreads
  have hperf : (initial config allocator numThreads).shared.hashTable.perfData
      counter = HashTablePerfData.initial counter := by
    simp only [Extreme, List.mem_cons, List.not_mem_nil, or_false] at hc
    rcases hc with rfl | rfl | rfl | rfl <;> rfl
  refine ⟨⟨_, stores_create config allocator⟩, fun th hth => ?_, fun th hth u hu => ?_, .inl hperf,
    hperf ▸ .refl counter _, fun r hr => absurd hr List.not_mem_nil,
    fun size hsize => absurd hsize (storesSize_create size)⟩
  · rw [hquiescent th hth]
    exact ⟨.idle, rfl⟩
  · rw [hquiescent th hth] at hu
    cases hu

/-- The sizes of the records that have been published. -/
def publishedSizes (counter : HashTablePerfCounter) (labels : List (Label config.setting)) :
    Set Int :=
  {size | ∃ r ∈ labels.flatMap Label.published,
    sizeFor config.recordSerializer counter r = size}

theorem Sizes.mem (h : Sizes counter labels p) :
    p.shared.hashTable.perfData counter ∈
      insert (HashTablePerfData.initial counter) (publishedSizes counter labels) :=
  h.attained.imp_right fun ⟨r, hr, hsize⟩ => ⟨r, hr, hsize.symm⟩

theorem Sizes.bounds (h : Sizes counter labels p) (hquiescent : Quiescent p) :
    ∀ size ∈ insert (HashTablePerfData.initial counter) (publishedSizes counter labels),
      Bounds counter (p.shared.hashTable.perfData counter) size := by
  rintro size (rfl | ⟨r, hr, rfl⟩)
  · exact h.bounded
  · rcases h.known r hr with hbounds | ⟨th, hth, hu⟩
    · exact hbounds
    · rw [hquiescent th hth] at hu
      cases hu

/-- The extreme sizes of the statistics are those of the records that any number of threads have
published: at any moment they are the sizes of such records, and between the operations there is no
record with a smaller or a larger size. -/
theorem extremes_of_run (config : HashTableConfig) (allocator : Allocator) (numThreads : Nat)
    (labels : List (Label config.setting)) (p : System config)
    (hrun : Run (Step config) (initial config allocator numThreads) labels p)
    (hfits : config.cache.isSome → ∀ l ∈ labels, l.Fits) :
    (∀ counter ∈ [HashTablePerfCounter.minKeySize, .maxKeySize, .minValueSize, .maxValueSize],
      p.shared.hashTable.perfData counter ∈
        insert (HashTablePerfData.initial counter) (publishedSizes counter labels)) ∧
    (Quiescent p →
      (∀ counter ∈ [HashTablePerfCounter.minKeySize, .minValueSize],
        IsLeast (insert (2 ^ 63 - 1) (publishedSizes counter labels))
          (p.shared.hashTable.perfData counter)) ∧
      (∀ counter ∈ [HashTablePerfCounter.maxKeySize, .maxValueSize],
        IsGreatest (insert 0 (publishedSizes counter labels))
          (p.shared.hashTable.perfData counter))) := by
  have hguarded : Run (Transition.Guarded (fun _ l => config.cache.isSome → l.Fits) (Step config))
      (initial config allocator numThreads) labels p :=
    hrun.guarded fun l hl hcache => hfits hcache l hl
  have hsizes (counter : HashTablePerfCounter) (hc : Extreme counter) : Sizes counter labels p :=
    hguarded.history_nil (fun _ _ _ _ h hstep => h.step hstep.2 hstep.1 hc) (sizes_initial hc)
  refine ⟨fun counter hc => (hsizes counter hc).mem, fun hquiescent =>
    ⟨fun counter hcounter => ?_, fun counter hcounter => ?_⟩⟩
  · simp only [List.mem_cons, List.not_mem_nil, or_false] at hcounter
    have hmin : isMinimum counter ∧ HashTablePerfData.initial counter = 2 ^ 63 - 1 := by
      rcases hcounter with rfl | rfl <;> exact ⟨rfl, rfl⟩
    have h := hsizes counter (by rcases hcounter with rfl | rfl <;> simp [Extreme])
    have hbounds := h.bounds hquiescent
    simp only [Bounds, hmin.1, if_true] at hbounds
    exact hmin.2 ▸ ⟨h.mem, hbounds⟩
  · simp only [List.mem_cons, List.not_mem_nil, or_false] at hcounter
    have hmax : isMinimum counter = false ∧ HashTablePerfData.initial counter = 0 := by
      rcases hcounter with rfl | rfl <;> exact ⟨rfl, rfl⟩
    have h := hsizes counter (by rcases hcounter with rfl | rfl <;> simp [Extreme])
    have hbounds := h.bounds hquiescent
    simp only [Bounds, hmax.1, Bool.false_eq_true, if_false] at hbounds
    exact hmax.2 ▸ ⟨h.mem, hbounds⟩

omit [Platform] in
/-- One thread adds a record to a new table and overwrites it with a shorter one. -/
theorem extremes_of_run_add :
    let _ : Platform := ⟨fun _ => (7, 0), 8, 64⟩
    ∃ (labels : List (Label {})) (p : System ⟨{}, none⟩) (s : Setting.Slot {})
        (r r' : RecordBuffer), Run (Step ⟨{}, none⟩) (initial ⟨{}, none⟩ ⟨0, []⟩ 1) labels p ∧
      Quiescent p ∧ .publish s r' (some r) ∈ labels ∧
      p.shared.hashTable.perfData .minValueSize = 1 ∧
      p.shared.hashTable.perfData .maxValueSize = 3 := by
  intro _
  let rs : RecordSerializer := ({} : Setting).recordSerializer
  let t : Table ⟨{}, none⟩ := (initial ⟨{}, none⟩ ⟨0, []⟩ 1).shared
  have ht : t.hashTable.Consistent rs := SharedHashTable.consistent_create _ _
  have hlock (i : Setting.BucketIndex {}) : Unlocked ([] ++ []) i := by simp [Unlocked]
  obtain ⟨r, allocator, s, stat, old, hashTable, hrecord, hp, hstore⟩ :=
    run_store [] [] ⟨⟨[1], by decide⟩, ⟨[2, 3, 4], by decide⟩⟩ ht (by decide) (by decide) hlock
  have hload : hashTable.load s = some r := by
    rw [hp.stored.load, Function.update_self]
  have hkey : rs.keyOf r = ⟨[1], by decide⟩ := congrArg Record.key hrecord
  have hadd := hstore.append (run_count _ _ _ _ _)
  let t' : Table ⟨{}, none⟩ :=
    t.setHashTable (hashTable.updatePerfData (updatePerfDataForAdd rs stat))
  have ht' : t'.hashTable.Consistent rs := (hp.consistent (ht.congr rfl rfl)).congr rfl rfl
  obtain ⟨r', allocator', stat', hashTable', hrecord', -, hoverwrite⟩ :=
    run_overwrite [] [] ⟨⟨[1], by decide⟩, ⟨[5], by decide⟩⟩ ht' hload hkey (by decide) hlock
  have hrun := hadd.append (hoverwrite.append (run_count _ [r] _ _ _))
  have hidle : ∀ th ∈ [(⟨[], .idle⟩ : Thread {})], th = ⟨[], .idle⟩ :=
    fun th hth => List.mem_singleton.mp hth
  refine ⟨_, _, s, r, r', hrun, hidle, by simp, ?_⟩
  obtain ⟨hleast, hgreatest⟩ := (extremes_of_run ⟨{}, none⟩ ⟨0, []⟩ 1 _ _ hrun
    fun hcache => absurd hcache Bool.false_ne_true).2 hidle
  have hsize : ((rs.valueOf r).size : Int) = 3 := by
    simp only [rs, RecordSerializer.valueOf, hrecord]
    rfl
  have hsize' : ((rs.valueOf r').size : Int) = 1 := by
    simp only [rs, RecordSerializer.valueOf, hrecord']
    rfl
  constructor
  · refine (hleast .minValueSize (by decide)).unique
      ⟨.inr ⟨r', by simp [Label.published], hsize'⟩, ?_⟩
    rintro size (rfl | ⟨r₁, hr₁, rfl⟩)
    · decide
    · have hor : r₁ = r ∨ r₁ = r' := by simpa [Label.published] using hr₁
      rcases hor with rfl | rfl
      · exact Int.le_trans (by decide) hsize.ge
      · exact hsize'.ge
  · refine (hgreatest .maxValueSize (by decide)).unique
      ⟨.inr ⟨r, by simp [Label.published], hsize⟩, ?_⟩
    rintro size (rfl | ⟨r₁, hr₁, rfl⟩)
    · decide
    · have hor : r₁ = r ∨ r₁ = r' := by simpa [Label.published] using hr₁
      rcases hor with rfl | rfl
      · exact hsize.le
      · exact Int.le_trans hsize'.le (by decide)

end Results

end L4.TableThreads
