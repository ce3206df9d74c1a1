import L4.EpochManager

namespace L4.EpochManager.System
set_option autoImplicit true

variable {Record : Type}

/-- How far the current epoch counter is ahead of the back of the queue. -/
def lag : Processing → Nat
  | .enqueuing => 1
  | _ => 0

/-- The queue accounts for the live references, and the current epoch counter is never behind
the back of the queue. -/
structure QueueInvariant (s : System Record) : Prop where
  references : s.queue.References (s.readers.map Reader.epochCounter)
  current_eq : s.manager.currentEpochCounter = s.queue.backIndex + lag s.processing
  current_fits : s.manager.currentEpochCounter < 2 ^ 64
  performing : ∀ oldest, s.processing = .performing oldest → oldest = s.queue.frontIndex

theorem QueueInvariant.epoch_le_current {s : System Record} (h : s.QueueInvariant)
    (hr : reader ∈ s.readers) : reader.epochCounter ≤ s.manager.currentEpochCounter := by
  have hb := h.references.between _ (List.mem_map_of_mem hr)
  have hc := h.current_eq
  omega

theorem QueueInvariant.front_le_epoch {s : System Record} (h : s.QueueInvariant)
    (hr : reader ∈ s.readers) : s.queue.frontIndex ≤ reader.epochCounter :=
  (h.references.between _ (List.mem_map_of_mem hr)).1

theorem QueueInvariant.step {s t : System Record} (h : s.QueueInvariant)
    (hstep : Transition.Guarded Fits Step s event t) : t.QueueInvariant := by
  obtain ⟨hfits, hstep⟩ := hstep
  obtain ⟨href, hcur, hcfits, hperf⟩ := h
  cases hstep with
  | addRef =>
    exact ⟨href.addRef (by rw [List.length_map]; exact hfits), hcur, hcfits, hperf⟩
  | load i reader hreaders hslot =>
    refine ⟨?_, hcur, hcfits, hperf⟩
    simpa [hreaders] using href
  | removeRef hreaders hq =>
    rw [hreaders, List.map_append, List.map_cons] at href
    refine ⟨?_, ?_, hcfits, ?_⟩
    · have hr := href.removeRef hq
      rwa [← List.map_append] at hr
    all_goals
      simp only [EpochQueue.removeRef] at hq
      split_ifs at hq
      obtain rfl := Except.ok.inj hq
    · exact hcur
    · exact hperf
  | updateRecord => exact ⟨href, hcur, hcfits, hperf⟩
  | readCounter => exact ⟨href, hcur, hcfits, hperf⟩
  | registerAction => exact ⟨href, hcur, hcfits, hperf⟩
  | removeUnreferenced hp hq =>
    refine ⟨href.removeUnreferencedFront hq, ?_, hcfits, fun _ ho => absurd (hp.symm.trans ho) ?_⟩
    · simp only [EpochQueue.removeUnreferencedFront] at hq
      split_ifs at hq
      obtain rfl := Option.some.inj hq
      exact hcur
    · simp
  | returnFront hp hq =>
    rw [hp] at hcur
    exact ⟨href, hcur, hcfits, fun _ ho => (Processing.performing.inj ho).symm⟩
  | performActions hp =>
    rw [hp] at hcur
    exact ⟨href, hcur, hcfits, fun _ ho => absurd ho (by simp)⟩
  | incrementCounter hp =>
    rw [hp] at hcur
    have hlt : s.manager.currentEpochCounter + 1 < 2 ^ 64 := hfits
    have hmod := Nat.mod_eq_of_lt hlt
    refine ⟨href, ?_, ?_, fun _ ho => absurd ho (by simp)⟩
    · show (s.manager.currentEpochCounter + 1) % 2 ^ 64 = s.queue.backIndex + 1
      rw [hmod, hcur]
      rfl
    · show (s.manager.currentEpochCounter + 1) % 2 ^ 64 < 2 ^ 64
      omega
  | addNewEpoch hp =>
    have heq : s.manager.currentEpochCounter = s.queue.backIndex + 1 := by
      simpa [hp, lag] using hcur
    refine ⟨href.addNewEpoch (by omega), ?_, hcfits, fun _ ho => absurd ho (by simp)⟩
    show s.manager.currentEpochCounter = (s.queue.backIndex + 1) % 2 ^ 64 + 0
    omega

/-- A release of the record at the epoch has been decided or registered. -/
def ReleaseAt (s : System Record) (record : Record) (epoch : Nat) : Prop :=
  .counterRead record epoch ∈ s.releases ∨ (epoch, record) ∈ s.pending

/-- The record has been unlinked. -/
def Retired (s : System Record) (record : Record) : Prop :=
  .unlinked record ∈ s.releases ∨ (∃ epoch, s.ReleaseAt record epoch) ∨ record ∈ s.released

/-- A linked record sits in one slot and is not on its way to be released. -/
structure LinkInvariant (s : System Record) : Prop where
  linked_unique : ∀ i j record, s.slots i = some record → s.slots j = some record → i = j
  linked_published : ∀ i record, s.slots i = some record → record ∈ s.published
  retired_published : ∀ record, s.Retired record → record ∈ s.published
  retired_unlinked : ∀ record, s.Retired record → ∀ i, s.slots i ≠ some record

/-- A reader that has loaded a record holds an epoch that its release waits for. -/
def Covered (s : System Record) : Prop :=
  ∀ reader ∈ s.readers, ∀ record ∈ reader.loaded,
    record ∉ s.released ∧ ∀ epoch, s.ReleaseAt record epoch → reader.epochCounter ≤ epoch

theorem ReleaseAt.retired {s : System Record} (h : s.ReleaseAt record epoch) :
    s.Retired record :=
  .inr (.inl ⟨epoch, h⟩)

/-- The only new release epoch is the current counter, read for an unlinked record. -/
theorem Step.releaseAt {s t : System Record} (h : Step s event t)
    (hr : t.ReleaseAt record epoch) : s.ReleaseAt record epoch ∨
      .unlinked record ∈ s.releases ∧ epoch = s.manager.currentEpochCounter := by
  cases h with
  | updateRecord =>
    rcases hr with hr | hr
    · rcases List.mem_append.mp hr with hr | hr
      · simp at hr
      · exact .inl (.inl hr)
    · exact .inl (.inr hr)
  | readCounter hreleases =>
    rcases hr with hr | hr
    · simp only [List.mem_append, List.mem_cons, Release.counterRead.injEq] at hr
      rcases hr with hr | ⟨rfl, rfl⟩ | hr
      · exact .inl (.inl (by simp [hreleases, hr]))
      · exact .inr ⟨by simp [hreleases], rfl⟩
      · exact .inl (.inl (by simp [hreleases, hr]))
    · exact .inl (.inr hr)
  | registerAction hreleases =>
    rcases hr with hr | hr
    · rcases List.mem_append.mp hr with hr | hr <;>
        exact .inl (.inl (by simp [hreleases, hr]))
    · rcases EpochActionManager.mem_pending_registerAction hr with he | hr
      · obtain ⟨rfl, rfl⟩ := Prod.mk.inj he
        exact .inl (.inl (by simp [hreleases]))
      · exact .inl (.inr hr)
  | performActions hp =>
    rcases hr with hr | hr
    · exact .inl (.inl hr)
    · exact .inl (.inr (EpochActionManager.mem_pending_performActions.mp hr).1)
  | _ => exact .inl hr

theorem Step.performed {s t : System Record} (h : Step s (.performActions actions) t)
    (hr : record ∈ actions) : ∃ oldest epoch, s.processing = .performing oldest ∧
      epoch < oldest ∧ s.ReleaseAt record epoch := by
  cases h with
  | performActions hp =>
    obtain ⟨epoch, hlt, hmem⟩ := EpochActionManager.mem_performed.mp hr
    exact ⟨_, epoch, hp, hlt, .inr hmem⟩

theorem Step.released {s t : System Record} (h : Step s event t) (hr : record ∈ t.released) :
    record ∈ s.released ∨ ∃ performed, event = .performActions performed ∧ record ∈ performed := by
  cases h with
  | performActions hp =>
    rcases List.mem_append.mp hr with hr | hr
    · exact .inl hr
    · exact .inr ⟨_, rfl, hr⟩
  | _ => exact .inl hr

theorem Step.retired {s t : System Record} (h : Step s event t) (hr : t.Retired record) :
    s.Retired record ∨ ∃ i newRecord, event = .updateRecord i newRecord ∧
      s.slots i = some record := by
  rcases hr with hr | ⟨epoch, hr⟩ | hr
  · cases h with
    | updateRecord i newRecord hnew =>
      rcases List.mem_append.mp hr with hr | hr
      · simp only [List.mem_map, Option.mem_toList, Release.unlinked.injEq, exists_eq_right] at hr
        exact .inr ⟨i, newRecord, rfl, hr⟩
      · exact .inl (.inl hr)
    | readCounter hreleases =>
      refine .inl (.inl ?_)
      simp only [List.mem_append, List.mem_cons, reduceCtorEq, false_or] at hr
      rcases hr with hr | hr <;> simp [hreleases, hr]
    | registerAction hreleases =>
      refine .inl (.inl ?_)
      rcases List.mem_append.mp hr with hr | hr <;> simp [hreleases, hr]
    | _ => exact .inl (.inl hr)
  · rcases h.releaseAt hr with hr | ⟨hr, -⟩
    · exact .inl hr.retired
    · exact .inl (.inl hr)
  · rcases h.released hr with hr | ⟨performed, rfl, hr⟩
    · exact .inl (.inr (.inr hr))
    · obtain ⟨_, _, _, _, hr⟩ := h.performed hr
      exact .inl hr.retired

theorem Step.linked {s t : System Record} (h : Step s event t) (hl : t.slots i = some record) :
    s.slots i = some record ∧ (∀ newRecord, event ≠ .updateRecord i newRecord) ∨
      record ∉ s.published ∧ record ∈ t.published ∧ event = .updateRecord i (some record) := by
  cases h with
  | updateRecord j newRecord hnew =>
    simp only [Function.update_apply] at hl
    split_ifs at hl with hij
    · subst hij hl
      exact .inr ⟨hnew record rfl, by simp, rfl⟩
    · refine .inl ⟨hl, fun newRecord he => hij ?_⟩
      injection he with hj
      exact hj.symm
  | _ => exact .inl ⟨hl, fun _ => by simp⟩

theorem Step.published {s t : System Record} (h : Step s event t) : s.published ⊆ t.published := by
  cases h with
  | updateRecord => exact List.subset_append_right _ _
  | _ => exact List.Subset.refl _

theorem LinkInvariant.step {s t : System Record} (h : s.LinkInvariant) (hstep : Step s event t) :
    t.LinkInvariant where
  linked_unique := by
    intro i j record hi hj
    rcases hstep.linked hi with ⟨hi, -⟩ | ⟨hi, -, rfl⟩ <;>
      rcases hstep.linked hj with ⟨hj, -⟩ | ⟨hj, -, he⟩
    · exact h.linked_unique i j record hi hj
    · exact absurd (h.linked_published i record hi) hj
    · exact absurd (h.linked_published j record hj) hi
    · injection he
  linked_published := by
    intro i record hi
    rcases hstep.linked hi with ⟨hi, -⟩ | ⟨-, hi, -⟩
    · exact hstep.published (h.linked_published i record hi)
    · exact hi
  retired_published := by
    intro record hr
    rcases hstep.retired hr with hr | ⟨i, -, -, hi⟩
    · exact hstep.published (h.retired_published record hr)
    · exact hstep.published (h.linked_published i record hi)
  retired_unlinked := by
    intro record hr i hi
    rcases hstep.retired hr with hr | ⟨j, newRecord, he, hj⟩ <;>
      rcases hstep.linked hi with ⟨hi, hne⟩ | ⟨hi, -, -⟩
    · exact h.retired_unlinked record hr i hi
    · exact hi (h.retired_published record hr)
    · obtain rfl := h.linked_unique i j record hi hj
      exact hne newRecord he
    · exact hi (h.linked_published j record hj)

theorem Step.loaded {s t : System Record} (h : Step s event t) (hr : reader ∈ t.readers)
    (hl : record ∈ reader.loaded) : ∃ reader' ∈ s.readers,
      reader'.epochCounter = reader.epochCounter ∧
        (record ∈ reader'.loaded ∨ ∃ i, event = .load i ∧ s.slots i = some record) := by
  cases h with
  | addRef =>
    rcases List.mem_cons.mp hr with rfl | hr
    · simp at hl
    · exact ⟨reader, hr, rfl, .inl hl⟩
  | load i reader' hreaders hslot =>
    simp only [List.mem_append, List.mem_cons] at hr
    rcases hr with hr | rfl | hr
    · exact ⟨reader, by simp [hreaders, hr], rfl, .inl hl⟩
    · refine ⟨reader', by simp [hreaders], rfl, ?_⟩
      rcases List.mem_cons.mp hl with rfl | hl
      · exact .inr ⟨i, rfl, hslot⟩
      · exact .inl hl
    · exact ⟨reader, by simp [hreaders, hr], rfl, .inl hl⟩
  | removeRef hreaders hq =>
    refine ⟨reader, ?_, rfl, .inl hl⟩
    rcases List.mem_append.mp hr with hr | hr <;> simp [hreaders, hr]
  | _ => exact ⟨reader, hr, rfl, .inl hl⟩

theorem Covered.not_performed {s t : System Record} (h : s.Covered) (hq : s.QueueInvariant)
    (hstep : Step s (.performActions performed) t) (hr : reader ∈ s.readers)
    (hl : record ∈ reader.loaded) : record ∉ performed := by
  intro hp
  obtain ⟨oldest, epoch, hproc, hlt, hrel⟩ := hstep.performed hp
  have hle := (h reader hr record hl).2 epoch hrel
  have hfront := hq.front_le_epoch hr
  have hold := hq.performing oldest hproc
  omega

theorem Covered.step {s t : System Record} (h : s.Covered) (hq : s.QueueInvariant)
    (hlink : s.LinkInvariant) (hstep : Step s event t) : t.Covered := by
  intro reader hr record hl
  obtain ⟨reader', hr', he, hl⟩ := hstep.loaded hr hl
  rcases hl with hl | ⟨i, rfl, hi⟩
  · refine ⟨fun hrel => ?_, fun epoch hrel => ?_⟩
    · rcases hstep.released hrel with hrel | ⟨performed, rfl, hp⟩
      · exact (h reader' hr' record hl).1 hrel
      · exact h.not_performed hq hstep hr' hl hp
    · rw [← he]
      rcases hstep.releaseAt hrel with hrel | ⟨-, rfl⟩
      · exact (h reader' hr' record hl).2 epoch hrel
      · exact hq.epoch_le_current hr'
  · have hlive : ¬ s.Retired record := fun hret => hlink.retired_unlinked record hret i hi
    refine ⟨fun hrel => ?_, fun epoch hrel => ?_⟩
    · rcases hstep.released hrel with hrel | ⟨_, hev, _⟩
      · exact absurd (.inr (.inr hrel)) hlive
      · cases hev
    · rcases hstep.releaseAt hrel with hrel | ⟨hrel, -⟩
      · exact absurd hrel.retired hlive
      · exact absurd (.inl hrel) hlive

structure Invariant (s : System Record) : Prop where
  queue : s.QueueInvariant
  link : s.LinkInvariant
  covered : s.Covered

theorem Invariant.step {s t : System Record} (h : s.Invariant)
    (hstep : Transition.Guarded Fits Step s event t) : t.Invariant :=
  ⟨h.queue.step hstep, h.link.step hstep.2, h.covered.step h.queue h.link hstep.2⟩

theorem initial_invariant (hq : EpochQueue.create 0 queueSize = .ok q) (numActionQueues : Nat) :
    (initial q numActionQueues : System Record).Invariant := by
  have hback : q.backIndex = 0 := by
    simp only [EpochQueue.create] at hq
    split_ifs at hq
    obtain rfl := Except.ok.inj hq
    rfl
  have hpending : (initial q numActionQueues : System Record).pending = [] := by
    simp [initial, pending, EpochActionManager.pending, EpochToActions.pending,
      EpochToActions.empty]
  have hretired : ∀ record, ¬ (initial q numActionQueues : System Record).Retired record := by
    rintro record (hr | ⟨epoch, hr | hr⟩ | hr)
    · simp [initial] at hr
    · simp [initial] at hr
    · simp [hpending] at hr
    · simp [initial] at hr
  refine ⟨⟨EpochQueue.create_references hq (by omega), ?_, ?_, ?_⟩, ⟨?_, ?_, ?_, ?_⟩, ?_⟩
  · exact hback.symm
  · simp [initial]
  · intro oldest ho
    cases ho
  · intro i j record hi
    cases hi
  · intro i record hi
    cases hi
  · exact fun record hr => absurd hr (hretired record)
  · exact fun record hr => absurd hr (hretired record)
  · intro reader hr
    cases hr

theorem reachable_invariant (hq : EpochQueue.create 0 queueSize = .ok q)
    (hrun : Transition.Run (Transition.Guarded Fits Step)
      (initial q numActionQueues : System Record) events s) : s.Invariant :=
  hrun.invariant (fun _ _ _ => Invariant.step) (initial_invariant hq numActionQueues)

/-- No record is released while a reader that loaded it still holds its reference: the actions
that the processing thread performs are never those of a record some live reader has loaded,
and no such record has been released before. -/
theorem no_use_after_release (hq : EpochQueue.create 0 queueSize = .ok q)
    (hrun : Transition.Run (Transition.Guarded Fits Step)
      (initial q numActionQueues : System Record) events s)
    (hreader : reader ∈ s.readers) (hloaded : record ∈ reader.loaded) :
    record ∉ s.released ∧ ∀ performed t, Step s (.performActions performed) t →
      record ∉ performed := by
  have h := reachable_invariant hq hrun
  exact ⟨(h.covered reader hreader record hloaded).1,
    fun performed t hstep => h.covered.not_performed h.queue hstep hreader hloaded⟩

/-- A reader keeps the record of a slot that is emptied while it holds its reference. -/
theorem no_use_after_release_of_unlinked :
    let s : System Nat :=
      { manager := ⟨0, ⟨0, 0, [1], by simp⟩, ⟨[⟨[(0, [7])], by simp⟩], 1⟩⟩
        slots := Function.update (Function.update (fun _ => none) 0 (some 7)) 0 none
        readers := [⟨0, [7]⟩]
        releases := []
        processing := .removing
        published := [7]
        released := [] }
    7 ∉ s.released ∧ ∀ performed t, Step s (.performActions performed) t → 7 ∉ performed := by
  refine @no_use_after_release Nat 1 ⟨0, 0, [0], by simp⟩ 1
    [.updateRecord 0 (some 7), .addRef, .load 0, .updateRecord 0 none, .readCounter 7,
      .registerAction 7] _ ⟨0, [7]⟩ 7 rfl ?_ (by simp) (by simp)
  refine .cons ⟨trivial, .updateRecord 0 (some 7) (by simp [initial])⟩ ?_
  refine .cons ⟨by simp [Fits, initial], .addRef⟩ ?_
  refine .cons ⟨trivial, .load 0 ⟨0, []⟩ (show _ = [] ++ _ :: [] from rfl) rfl⟩ ?_
  refine .cons ⟨trivial, .updateRecord 0 none (by simp)⟩ ?_
  refine .cons ⟨trivial, .readCounter (show _ = [] ++ _ :: [] from rfl)⟩ ?_
  exact .cons ⟨trivial, .registerAction (show _ = [] ++ _ :: [] from rfl)⟩ .nil

end L4.EpochManager.System
